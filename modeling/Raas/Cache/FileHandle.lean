import Raas.Data.Positional
import Raas.Os.Files

namespace Raas

open Data

structure File where
  id : FileId
  offset : Nat
deriving DecidableEq

structure FileHandleCache where
  currentFile : Option (Path × File)
  /-- What `File::open` has been called with so far, for the record: no code reads it. -/
  opened : List Path
deriving DecidableEq

namespace FileHandleCache

def new : FileHandleCache := { currentFile := none, opened := [] }

/-- The handle to read `path` through: the remembered one if its path is the same,
a freshly opened one otherwise. -/
def handle (os : Files) (cache : FileHandleCache) (now : Nat) (path : Path) :
    Except IoError (Path × File) × List Path × Nat :=
  match cache.currentFile with
  | some (cachedPath, file) =>
      if Path.same cachedPath path then (.ok (cachedPath, file), cache.opened, now) else openNew os cache now path
  | none => openNew os cache now path
where
  openNew (os : Files) (cache : FileHandleCache) (now : Nat) (path : Path) :
      Except IoError (Path × File) × List Path × Nat :=
    match os.openFile now path with
    | .error reason => (.error reason, cache.opened ++ [path], now + 1)
    | .ok id => (.ok (path, { id, offset := 0 }), cache.opened ++ [path], now + 1)

theorem handle_cases (os : Files) (cache : FileHandleCache) (now : Nat) (path : Path) :
    handle os cache now path = handle.openNew os cache now path ∨
      ∃ cachedPath file, cache.currentFile = some (cachedPath, file) ∧ Path.same cachedPath path = true ∧
        handle os cache now path = (.ok (cachedPath, file), cache.opened, now) := by
  unfold handle
  cases cached : cache.currentFile with
  | none => exact .inl rfl
  | some pair =>
      obtain ⟨cachedPath, file⟩ := pair
      by_cases hit : Path.same cachedPath path = true
      · exact .inr ⟨cachedPath, file, rfl, hit, if_pos hit⟩
      · exact .inl (if_neg hit)

/-- Seek to `position` and read once. A failed open keeps the old handle; after a
failed seek or read the cache holds the handle that was chosen. -/
def readAt (os : Files) (cache : FileHandleCache) (now : Nat) (path : Path) (position room : Nat) :
    Except IoError Bytes × FileHandleCache × Nat :=
  match handle os cache now path with
  | (.error reason, opened, now) => (.error reason, { cache with opened }, now)
  | (.ok (cachedPath, file), opened, now) =>
      match os.seek now file.id position with
      | .error reason => (.error reason, { currentFile := some (cachedPath, file), opened }, now + 1)
      | .ok () =>
          match os.read (now + 1) file.id position room with
          | .error reason =>
              (.error reason, { currentFile := some (cachedPath, { file with offset := position }), opened }, now + 2)
          | .ok bytes =>
              (.ok bytes,
                { currentFile := some (cachedPath, { file with offset := position + bytes.length }), opened }, now + 2)

/-- A read that is answered goes through the handle that the cache holds afterwards: one
that has just been opened for the path, or the one it had. -/
theorem readAt_keeps {os : Files} {cache after : FileHandleCache} {now later position room : Nat} {path : Path}
    {bytes : Bytes} (answered : readAt os cache now path position room = (.ok bytes, after, later)) :
    ∃ held file time, after.currentFile = some (held, file) ∧ os.read time file.id position room = .ok bytes ∧
      ((held = path ∧ os.openFile now path = .ok file.id ∧ after.opened = cache.opened ++ [path]) ∨
        Path.same held path = true ∧ (∃ old, cache.currentFile = some (held, old) ∧ old.id = file.id) ∧
          after.opened = cache.opened) := by
  have kept : ∀ {held : Path} {chosen : File} {opened : List Path} {time : Nat},
      handle os cache now path = (.ok (held, chosen), opened, time) →
      ∃ file, after.currentFile = some (held, file) ∧ os.read (time + 1) file.id position room = .ok bytes ∧
        file.id = chosen.id ∧ after.opened = opened := by
    intro held chosen opened time handled
    cases sought : os.seek time chosen.id position with
    | error reason => simp [readAt, handled, sought] at answered
    | ok _ =>
        cases got : os.read (time + 1) chosen.id position room with
        | error reason => simp [readAt, handled, sought, got] at answered
        | ok read =>
            simp only [readAt, handled, sought, got, Prod.mk.injEq, Except.ok.injEq] at answered
            obtain ⟨rfl, rfl, _⟩ := answered
            exact ⟨_, rfl, got, rfl, rfl⟩
  rcases handle_cases os cache now path with handled | ⟨held, old, cached, same, handled⟩
  · cases result : os.openFile now path with
    | error reason => simp [readAt, handled, handle.openNew, result] at answered
    | ok id =>
        rw [handle.openNew, result] at handled
        obtain ⟨file, current, read, own, opened⟩ := kept handled
        exact ⟨path, file, _, current, read, .inl ⟨rfl, congrArg _ own.symm, opened⟩⟩
  · obtain ⟨file, current, read, own, opened⟩ := kept handled
    exact ⟨held, file, _, current, read, .inr ⟨same, ⟨old, cached, own.symm⟩, opened⟩⟩

theorem readAt_answer {os : Files} {cache after : FileHandleCache} {now later position room : Nat} {path : Path}
    {bytes : Bytes} (answered : readAt os cache now path position room = (.ok bytes, after, later)) :
    ∃ opened file, os.read opened file position room = .ok bytes := by
  obtain ⟨_, file, time, _, read, _⟩ := readAt_keeps answered
  exact ⟨time, file.id, read⟩

theorem readAt_length {os : Files} {cache after : FileHandleCache} {now later position room : Nat} {path : Path}
    {bytes : Bytes} (answered : readAt os cache now path position room = (.ok bytes, after, later)) :
    bytes.length ≤ room := by
  obtain ⟨opened, file, got⟩ := readAt_answer answered
  exact os.read_length got

def Valid (holds : FileId → Option Bytes) (content : Path → Option Bytes) (cache : FileHandleCache) : Prop :=
  ∀ path file, cache.currentFile = some (path, file) →
    ∃ bytes, content path = some bytes ∧ holds file.id = some bytes

variable {os : Files} {Fails : IoError → Prop} {holds : FileId → Option Bytes} {content : Path → Option Bytes}
  {cache : FileHandleCache} {path : Path} {bytes : Bytes}

theorem new_valid : new.Valid holds content := by
  intro path file cached
  simp [new] at cached

theorem handle_falters (falters : os.Falters Fails holds content) (valid : cache.Valid holds content)
    (found : content path = some bytes) (now : Nat) :
    (∃ reason after, handle os cache now path = (.error reason, after) ∧ Fails reason) ∨
      ∃ cachedPath file after, handle os cache now path = (.ok (cachedPath, file), after) ∧
        content cachedPath = some bytes ∧ holds file.id = some bytes := by
  rcases handle_cases os cache now path with chosen | ⟨cachedPath, file, cached, hit, chosen⟩
  · rw [chosen, handle.openNew]
    rcases falters.opens now path bytes found with ⟨reason, failed, admitted⟩ | ⟨id, opened, holding⟩
    · rw [failed]
      exact .inl ⟨reason, _, rfl, admitted⟩
    · rw [opened]
      exact .inr ⟨path, { id, offset := 0 }, _, rfl, found, holding⟩
  · obtain ⟨held, leads, holding⟩ := valid cachedPath file cached
    have same := falters.respects cachedPath path held bytes hit leads found
    subst same
    exact .inr ⟨cachedPath, file, _, chosen, leads, holding⟩

theorem valid_of_held {cachedPath : Path} {file : File} {opened : List Path} (leads : content cachedPath = some bytes)
    (holding : holds file.id = some bytes) : Valid holds content { currentFile := some (cachedPath, file), opened } := by
  intro otherPath otherFile cached
  simp only [Option.some.injEq, Prod.mk.injEq] at cached
  obtain ⟨rfl, rfl⟩ := cached
  exact ⟨bytes, leads, holding⟩

theorem Valid.recorded (valid : cache.Valid holds content) (opened : List Path) :
    Valid holds content { cache with opened } := valid

/-- A read finds bytes of the file, or fails; either way the handle that is kept leads
to its path's content. -/
theorem readAt_delivers (falters : os.Falters Fails holds content) (valid : cache.Valid holds content)
    (found : content path = some bytes) (now position room : Nat)
    (inside : position < bytes.length) (positive : 0 < room) :
    Delivers (fun kept : FileHandleCache × Nat => kept.1.Valid holds content) Fails bytes bytes.length position room
      (readAt os cache now path position room) := by
  unfold readAt
  rcases handle_falters falters valid found now with
    ⟨reason, after, failed, admitted⟩ | ⟨cachedPath, file, ⟨record, opened⟩, chosen, leads, holding⟩
  · simp only [failed]
    exact ⟨admitted, valid.recorded after.1⟩
  · simp only [chosen]
    rcases falters.seeks opened file.id bytes position holding with ⟨reason, failed, admitted⟩ | sought
    · simp only [failed]
      exact ⟨admitted, valid_of_held leads holding⟩
    · simp only [sought]
      rcases falters.reads (opened + 1) file.id bytes position room holding with
        ⟨reason, failed, admitted⟩ | ⟨count, answered, fits, progress⟩
      · simp only [failed]
        exact ⟨admitted, valid_of_held leads holding⟩
      · have counted := progress positive inside
        have delivered : window bytes position (position + min count (bytes.length - position)) =
            window bytes position (position + count) := by
          rw [← window_clip bytes position (position + count), Nat.min_eq_left (Nat.le_of_lt inside)]
          congr 1
          omega
        simp only [answered, ← delivered]
        exact Delivers.of_window (valid_of_held leads holding) (show 0 < min count (bytes.length - position) by omega)
          (by omega) (by omega) (Nat.le_refl _) rfl

end FileHandleCache

end Raas
