import Raas.Data.Window
import Raas.Os.Path

namespace Raas

open Data

abbrev FileId := Nat

/-- The operating system as the readers meet it: call number `now` of a run gets
the answer recorded for `now`, so one value of this type is one behaviour of the
outside world, and nothing is promised from one call to the next. -/
structure Files where
  isFile : Nat → Path → Bool
  openFile : Nat → Path → Except IoError FileId
  seek : Nat → FileId → Nat → Except IoError Unit
  read : Nat → FileId → Nat → Nat → Except IoError Bytes
  read_length : read now file offset room = .ok bytes → bytes.length ≤ room

structure Files.Serves (os : Files) (holds : FileId → Option Bytes)
    (content : Path → Option Bytes) : Prop where
  steadyKind : ∀ now path, os.isFile now path = os.isFile 0 path
  opens : ∀ now path bytes, content path = some bytes →
    ∃ file, os.openFile now path = .ok file ∧ holds file = some bytes
  respects : ∀ left right leftBytes rightBytes, Path.same left right = true →
    content left = some leftBytes → content right = some rightBytes → leftBytes = rightBytes
  seeks : ∀ now file bytes position, holds file = some bytes → os.seek now file position = .ok ()
  reads : ∀ now file bytes offset room, holds file = some bytes →
    ∃ count, os.read now file offset room = .ok (window bytes offset (offset + count)) ∧
      count ≤ room ∧ (0 < room → offset < bytes.length → 0 < count)

/-- The same files, but any open, seek or read may fail in a way that `Fails` admits. -/
structure Files.Falters (os : Files) (Fails : IoError → Prop) (holds : FileId → Option Bytes)
    (content : Path → Option Bytes) : Prop where
  steadyKind : ∀ now path, os.isFile now path = os.isFile 0 path
  opens : ∀ now path bytes, content path = some bytes →
    (∃ reason, os.openFile now path = .error reason ∧ Fails reason) ∨
      ∃ file, os.openFile now path = .ok file ∧ holds file = some bytes
  respects : ∀ left right leftBytes rightBytes, Path.same left right = true →
    content left = some leftBytes → content right = some rightBytes → leftBytes = rightBytes
  seeks : ∀ now file bytes position, holds file = some bytes →
    (∃ reason, os.seek now file position = .error reason ∧ Fails reason) ∨ os.seek now file position = .ok ()
  reads : ∀ now file bytes offset room, holds file = some bytes →
    (∃ reason, os.read now file offset room = .error reason ∧ Fails reason) ∨
      ∃ count, os.read now file offset room = .ok (window bytes offset (offset + count)) ∧
        count ≤ room ∧ (0 < room → offset < bytes.length → 0 < count)

theorem Files.Serves.falters {os : Files} {holds : FileId → Option Bytes} {content : Path → Option Bytes}
    (serves : os.Serves holds content) (Fails : IoError → Prop) : os.Falters Fails holds content where
  steadyKind := serves.steadyKind
  opens now path bytes found := .inr (serves.opens now path bytes found)
  respects := serves.respects
  seeks now file bytes position holding := .inr (serves.seeks now file bytes position holding)
  reads now file bytes offset room holding := .inr (serves.reads now file bytes offset room holding)

/-- Nothing that the run reads changes while it lasts. -/
def Files.Unchanged (os : Files) (content : Path → Option Bytes) : Prop :=
  ∃ holds, os.Serves holds content

/-- Of a path without content nothing is read: it cannot be opened, or every read fails. -/
def Files.Bare (os : Files) (content : Path → Option Bytes) : Prop :=
  ∀ now path file, content path = none → os.openFile now path = .ok file →
    ∀ later offset room bytes, os.read later file offset room ≠ .ok bytes

end Raas
