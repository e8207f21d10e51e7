import Raas.Os.Files

namespace Raas

open Data

/-! Files that stay as they are, given by what each path leads to. -/

namespace Files

def contentOf : List (Path × Bytes) → Path → Option Bytes
  | [], _ => none
  | (known, bytes) :: rest, path => if Path.same known path then some bytes else contentOf rest path

def handleOf : List (Path × Bytes) → Path → Option FileId
  | [], _ => none
  | (known, _) :: rest, path => if Path.same known path then some 0 else (handleOf rest path).map (· + 1)

/-- A file system that holds a table of files, and hands out at most `chunk` bytes a read. -/
def memory (table : List (Path × Bytes)) (chunk : Nat) : Files where
  isFile := fun _ path => (contentOf table path).isSome
  openFile := fun _ path =>
    match handleOf table path with
    | some file => .ok file
    | none => .error { kind := .notFound, message := "No such file or directory (os error 2)" }
  seek := fun _ _ _ => .ok ()
  read := fun _ file offset room =>
    .ok (window ((table[file]?.map Prod.snd).getD []) offset (offset + min room chunk))
  read_length := by
    intro now file offset room bytes answered
    simp only [Except.ok.injEq] at answered
    rw [← answered, window_length]
    omega

/-- A file system on which every call fails. -/
def absent : Files where
  isFile := fun _ _ => false
  openFile := fun _ _ => .error (.other "")
  seek := fun _ _ _ => .error (.other "")
  read := fun _ _ _ _ => .error (.other "")
  read_length := by
    intro now file offset room bytes answered
    cases answered

/-- The same file system with too many open files at some instants. -/
def exhaustedAt (os : Files) (down : Nat → Bool) : Files where
  isFile := os.isFile
  openFile := fun now path =>
    if down now then .error (.other "Too many open files (os error 24)") else os.openFile now path
  seek := fun now file position =>
    if down now then .error (.other "Too many open files (os error 24)") else os.seek now file position
  read := fun now file offset room =>
    if down now then .error (.other "Too many open files (os error 24)") else os.read now file offset room
  read_length := by
    intro now file offset room bytes answered
    split at answered
    · exact nomatch answered
    · exact os.read_length answered

/-- A file system whose one file has another byte for every read. -/
def growing : Files where
  isFile := fun _ _ => true
  openFile := fun _ _ => .ok 0
  seek := fun _ _ _ => .ok ()
  read := fun _ _ _ room => .ok (List.replicate (min room 1) 0)
  read_length := by
    intro now file offset room bytes answered
    simp only [Except.ok.injEq] at answered
    rw [← answered, List.length_replicate]
    exact Nat.min_le_left _ _

/-- A file system on which every file has been cut to nothing. -/
def emptied : Files where
  isFile := fun _ _ => false
  openFile := fun _ _ => .ok 0
  seek := fun _ _ _ => .ok ()
  read := fun _ _ _ _ => .ok []
  read_length := by
    intro now file offset room bytes answered
    simp only [Except.ok.injEq] at answered
    rw [← answered]
    exact Nat.zero_le room

variable {table : List (Path × Bytes)} {path : Path} {bytes : Bytes}

theorem handleOf_content (found : contentOf table path = some bytes) :
    ∃ file, handleOf table path = some file ∧ table[file]?.map Prod.snd = some bytes := by
  induction table with
  | nil => simp [contentOf] at found
  | cons row rest ih =>
      obtain ⟨known, held⟩ := row
      rw [contentOf] at found
      rw [handleOf]
      by_cases here : Path.same known path = true
      · rw [if_pos here] at found ⊢
        exact ⟨0, rfl, found⟩
      · rw [if_neg here] at found ⊢
        obtain ⟨file, handle, content⟩ := ih found
        exact ⟨file + 1, by rw [handle]; rfl, by simpa using content⟩

theorem contentOf_same {left right : Path} (same : Path.same left right = true) :
    contentOf table left = contentOf table right := by
  have equal : Path.components left = Path.components right := of_decide_eq_true same
  induction table with
  | nil => rfl
  | cons row rest ih => rw [contentOf, contentOf, Path.same, Path.same, equal, ih]

theorem memory_unchanged (table : List (Path × Bytes)) {chunk : Nat} (positive : 0 < chunk) :
    (memory table chunk).Unchanged (contentOf table) := by
  refine ⟨fun file => table[file]?.map Prod.snd, ⟨fun _ _ => rfl, ?_, ?_, fun _ _ _ _ _ => rfl, ?_⟩⟩
  · intro now path bytes found
    obtain ⟨file, handle, content⟩ := handleOf_content found
    exact ⟨file, by simp only [memory, handle], content⟩
  · intro left right leftBytes rightBytes same leftFound rightFound
    rw [contentOf_same same, rightFound] at leftFound
    exact (Option.some.inj leftFound).symm
  · intro now file bytes offset room content
    refine ⟨min room chunk, by simp only [memory, content, Option.getD_some], Nat.min_le_left _ _, ?_⟩
    intro room _
    omega

theorem handleOf_none (missing : contentOf table path = none) : handleOf table path = none := by
  induction table with
  | nil => rfl
  | cons row rest ih =>
      rw [contentOf] at missing
      rw [handleOf]
      split at missing
      · cases missing
      · rename_i other
        rw [if_neg other, ih missing]
        rfl

theorem memory_bare (table : List (Path × Bytes)) (chunk : Nat) : (memory table chunk).Bare (contentOf table) := by
  intro now path file missing opened
  simp [memory, handleOf_none missing] at opened

theorem Serves.exhaustedAt {os : Files} {holds : FileId → Option Bytes} {content : Path → Option Bytes}
    (serves : os.Serves holds content) (down : Nat → Bool) :
    (os.exhaustedAt down).Falters (fun _ => True) holds content where
  steadyKind := serves.steadyKind
  respects := serves.respects
  opens now path bytes found := by
    by_cases failing : down now = true
    · exact .inl ⟨_, if_pos failing, trivial⟩
    · obtain ⟨file, opened, holding⟩ := serves.opens now path bytes found
      exact .inr ⟨file, (if_neg failing).trans opened, holding⟩
  seeks now file bytes position holding := by
    by_cases failing : down now = true
    · exact .inl ⟨_, if_pos failing, trivial⟩
    · exact .inr ((if_neg failing).trans (serves.seeks now file bytes position holding))
  reads now file bytes offset room holding := by
    by_cases failing : down now = true
    · exact .inl ⟨_, if_pos failing, trivial⟩
    · obtain ⟨count, answered, bounds⟩ := serves.reads now file bytes offset room holding
      exact .inr ⟨count, (if_neg failing).trans answered, bounds⟩

end Files

end Raas
