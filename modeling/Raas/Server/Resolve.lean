import Raas.Os.Straying
import Raas.Archive.Tar.Sources
import Raas.Server.Download

namespace Raas

/-! Which file or directory of the data root a request means. -/

namespace Path

def existsIn (fs : Node) (path : Path) : Bool := (opens fs path).isSome

def canonicalize (fs : Node) (path : Path) : Except IoError Path :=
  match opens fs path with
  | some location => .ok (pathOf [separator] location)
  | none => .error { kind := .notFound, message := "No such file or directory (os error 2)" }

end Path

namespace Server

def utf8 (text : String) : Bytes := text.toList.flatMap String.utf8EncodeChar

def outsideRoot : ArchiveApiError := .badRequest "非法路径: 超出数据根目录"

def pathMissing (relativePath : String) : ArchiveApiError := .badRequest ("路径不存在: " ++ relativePath)

def resolveAndValidatePath (fs : Node) (root : Path) (relativePath : String) : Except ArchiveApiError Path :=
  let fullPath := Path.join root (utf8 relativePath)
  if ¬ fullPath.startsWith root then .error outsideRoot
  else if ¬ fullPath.existsIn fs then .error (pathMissing relativePath)
  else
    match fullPath.canonicalize fs with
    | .error reason => .error (.internalError ("解析目标路径失败: " ++ reason.message))
    | .ok canonicalized => if ¬ canonicalized.startsWith root then .error outsideRoot else .ok canonicalized

/-- What is to be known of the file system outside the root for a request: a walk of its
path asks for a name there that is not on the way to the root, and the rest of the path
can be walked in some file system. -/
def DependsOnOutside (location : Location) (inside : Node) (relativePath : String) : Prop :=
  let fullPath := Path.join (pathOf [separator] location) (utf8 relativePath)
  fullPath.startsWith (pathOf [separator] location) = true ∧
    match stray location (bare location inside) maxLinks [] (fullPath.splitOn separator) with
    | none => False
    | some point =>
        (∀ piece ∈ point.pieces, Nameable piece) ∧
          (0 < point.links ∨ (grow location (bare location inside) point.here point.pieces).isSome)

instance (location : Location) (inside : Node) (relativePath : String) :
    Decidable (DependsOnOutside location inside relativePath) := by
  unfold DependsOnOutside
  dsimp only
  split <;> infer_instance

section Resolving

variable {fs fs' inside : Node} {location : Location} {root : Path} {relativePath : String}

/-- A request is answered by where its path leads. -/
theorem resolveAndValidatePath_eq (fs : Node) (root : Path) (relativePath : String) :
    resolveAndValidatePath fs root relativePath =
      if (Path.join root (utf8 relativePath)).startsWith root then
        match opens fs (Path.join root (utf8 relativePath)) with
        | none => .error (pathMissing relativePath)
        | some found =>
            if (pathOf [separator] found).startsWith root then .ok (pathOf [separator] found) else .error outsideRoot
      else .error outsideRoot := by
  unfold resolveAndValidatePath Path.existsIn Path.canonicalize
  dsimp only
  cases (Path.join root (utf8 relativePath)).startsWith root with
  | false => rfl
  | true =>
      cases opens fs (Path.join root (utf8 relativePath)) with
      | none => rfl
      | some found => simp only [not_true, if_false, if_true, Option.isSome_some, ite_not]

theorem pathMissing_ne : pathMissing relativePath ≠ outsideRoot := by
  intro same
  have texts := congrArg String.toList (ArchiveApiError.badRequest.inj same)
  rw [String.toList_append] at texts
  exact absurd (List.cons.inj texts).1 (by decide)

theorem resolve_congr (same : opens fs (Path.join root (utf8 relativePath)) = opens fs' (Path.join root (utf8 relativePath))) :
    resolveAndValidatePath fs root relativePath = resolveAndValidatePath fs' root relativePath := by
  rw [resolveAndValidatePath_eq, resolveAndValidatePath_eq, same]

/-- A path that leads somewhere is not answered like one that leads nowhere. -/
theorem resolve_differs (starts : (Path.join root (utf8 relativePath)).startsWith root = true) {found : Location}
    (arrives : opens fs (Path.join root (utf8 relativePath)) = some found)
    (lost : opens fs' (Path.join root (utf8 relativePath)) = none) :
    resolveAndValidatePath fs root relativePath ≠ resolveAndValidatePath fs' root relativePath := by
  rw [resolveAndValidatePath_eq, resolveAndValidatePath_eq, if_pos starts, if_pos starts, arrives, lost]
  dsimp only
  split
  · intro same
    cases same
  · intro same
    exact pathMissing_ne (Except.error.inj same).symm

/-- The answer to a request is the same whatever is outside the root exactly if its walk
does not depend on that. -/
theorem outside_unobservable_iff (names : ∀ name ∈ location, LegalName name) (legal : inside.Legal)
    (relativePath : String) :
    (∀ fs fs', Around location inside fs → Around location inside fs' →
      resolveAndValidatePath fs (pathOf [separator] location) relativePath =
        resolveAndValidatePath fs' (pathOf [separator] location) relativePath) ↔
      ¬ DependsOnOutside location inside relativePath := by
  have known := bare_around names legal
  generalize path : Path.join (pathOf [separator] location) (utf8 relativePath) = fullPath
  have start : ∃ node, (bare location inside).lookup [] = some node := ⟨_, Node.lookup_nil _⟩
  rw [DependsOnOutside, path]
  cases starts : fullPath.startsWith (pathOf [separator] location) with
  | false =>
      refine iff_of_true (fun fs fs' _ _ => ?_) fun depends => Bool.false_ne_true depends.1
      rw [resolveAndValidatePath_eq, resolveAndValidatePath_eq, path, if_neg (by rw [starts]; exact Bool.false_ne_true),
        if_neg (by rw [starts]; exact Bool.false_ne_true)]
  | true =>
      cases strays : stray location (bare location inside) maxLinks [] (fullPath.splitOn separator) with
      | none =>
          have decided (fs : Node) (around : Around location inside fs) : opens fs fullPath = opens (bare location inside) fullPath := by
            have same := decided_walk around maxLinks [] (fullPath.splitOn separator) start
            rw [strays] at same
            exact same
          refine iff_of_true (fun fs fs' around around' => ?_) fun depends => depends.2
          apply resolve_congr
          rw [path, decided fs around, decided fs' around']
      | some point =>
          have strayed (fs : Node) (around : Around location inside fs) :
              opens fs fullPath = walk fs point.links point.here point.pieces ∧ point.Astray location inside := by
            have same := decided_walk around maxLinks [] (fullPath.splitOn separator) start
            rw [strays] at same
            exact same
          have astray : point.Astray location inside := (strayed _ known).2
          have completes := astray.arrives_iff names legal
          dsimp only
          rw [← completes]
          constructor
          · intro same reaches
            obtain ⟨_, fs, found, around, arrives⟩ := reaches
            have leads : opens fs fullPath = some found := (strayed fs around).1.trans arrives
            have lost : opens (bare location inside) fullPath = none := (strayed _ known).1.trans astray.lost
            rw [← path] at leads lost starts
            exact resolve_differs starts leads lost (same fs _ around known)
          · intro independent fs fs' around around'
            have lost (fs : Node) (around : Around location inside fs) : opens fs fullPath = none := by
              cases leads : opens fs fullPath with
              | none => rfl
              | some found =>
                  exact absurd ⟨rfl, fs, found, around, (strayed fs around).1.symm.trans leads⟩ independent
            apply resolve_congr
            rw [path, lost fs around, lost fs' around']

end Resolving

/-- The data root `/s` with a file `a`, alone or beside a file `x`. -/
def lonelyRoot : Node := Tar.rootOf Tar.plainListing

def accompaniedRoot : Node :=
  .dir smallStat (.cons [120] (.leaf (.file [7] smallStat)) (.cons [115] (.dir smallStat Tar.plainListing) .nil))

theorem around_lonelyRoot : Around [[115]] (.dir smallStat Tar.plainListing) lonelyRoot :=
  ⟨by decide, rfl⟩

theorem around_accompaniedRoot : Around [[115]] (.dir smallStat Tar.plainListing) accompaniedRoot :=
  ⟨by decide, rfl⟩

example : DependsOnOutside [[115]] (.dir smallStat (.cons [108] (.leaf (.symlink [47, 120])) .nil)) "l" := by decide

theorem outside_unobservable_reentering :
    resolveAndValidatePath lonelyRoot (pathOf [separator] [[115]]) "../s/a" =
      resolveAndValidatePath accompaniedRoot (pathOf [separator] [[115]]) "../s/a" := by
  have names : ∀ name ∈ [[115]], LegalName name := List.forall_mem_singleton.mpr (by decide)
  have legal : (Node.dir smallStat Tar.plainListing).Legal := by decide
  exact (outside_unobservable_iff names legal "../s/a").mpr (by decide) _ _ around_lonelyRoot around_accompaniedRoot

theorem missing_path_tells_outside :
    Around [[115]] (.dir smallStat Tar.plainListing) lonelyRoot ∧
      Around [[115]] (.dir smallStat Tar.plainListing) accompaniedRoot ∧
      resolveAndValidatePath lonelyRoot (pathOf [separator] [[115]]) "../x" = .error (pathMissing "../x") ∧
      resolveAndValidatePath accompaniedRoot (pathOf [separator] [[115]]) "../x" = .error outsideRoot ∧
      pathMissing "../x" ≠ outsideRoot :=
  ⟨around_lonelyRoot, around_accompaniedRoot, by decide, by decide, pathMissing_ne⟩

end Server

end Raas
