import Raas.Machine

namespace Raas

inductive ArchiveFormat where
  | tar
  | zip
deriving DecidableEq, Repr

namespace ArchiveFormat

def extension : ArchiveFormat → String
  | .tar => "tar"
  | .zip => "zip"

def contentType : ArchiveFormat → String
  | .tar => "application/x-tar"
  | .zip => "application/zip"

end ArchiveFormat

inductive ArchiveError where
  | io (reason : IoError)
  | serialization (message : String)
  | unexpectedError (message : String)
deriving DecidableEq, Repr

namespace ArchiveError

def toString : ArchiveError → String
  | .io reason => "IO 错误: " ++ reason.message
  | .serialization message => "序列化错误: " ++ message
  | .unexpectedError message => "意料之外的错误: " ++ message

end ArchiveError

end Raas
