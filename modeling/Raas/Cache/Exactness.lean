import Raas.Cache.ArchiveCache
import Raas.Data.Runs

namespace Raas

open Data

namespace Path

/-! What a path means when it is read name by name, without a look at the disk. -/

def lexicalStep (names : List Bytes) : Bytes → List Bytes
  | [] => names
  | [46] => names
  | [46, 46] => names.dropLast
  | name => names ++ [name]

/-- The names of an absolute path once `.` and `..` are resolved; `..` at the root stays there. -/
def lexical (path : Path) : List Bytes := (path.splitOn separator).foldl lexicalStep []

/-- `path` is `changed` or one of its ancestors. -/
def Above (path changed : Path) : Prop := lexical path <+: lexical changed

instance (path changed : Path) : Decidable (Above path changed) := inferInstanceAs (Decidable (_ <+: _))

theorem normalizeStep_parent (names : Location) :
    normalizeStep (componentsOf names) .parentDir = componentsOf names.dropLast := by
  cases names using List.reverseRecOn with
  | nil => rfl
  | append_singleton front name =>
      have whole : componentsOf (front ++ [name]) = componentsOf front ++ [.normal name] := by
        rw [componentsOf, List.map_append, ← List.cons_append]
        rfl
      rw [whole, normalizeStep, List.getLast?_concat, List.dropLast_concat, List.dropLast_concat]

theorem normalizeStep_normal (names : Location) (name : Bytes) :
    normalizeStep (componentsOf names) (.normal name) = componentsOf (names ++ [name]) := by
  rw [normalizeStep, componentsOf, componentsOf, List.map_append, List.cons_append]
  rfl

theorem lexicalStep_component (names : Location) (piece : Bytes) :
    (parseComponent piece).elim (componentsOf names) (normalizeStep (componentsOf names)) =
      componentsOf (lexicalStep names piece) := by
  fun_cases lexicalStep names piece with
  | case1 => rfl
  | case2 => rfl
  | case3 => exact normalizeStep_parent names
  | case4 piece nonempty notDot notDots =>
      have parsed : parseComponent piece = some (.normal piece) := by
        unfold parseComponent
        split
        · exact absurd rfl nonempty
        · exact absurd rfl notDot
        · exact absurd rfl notDots
        · rfl
      rw [parsed]
      exact normalizeStep_normal names piece

theorem foldl_lexical (pieces : List Bytes) (names : Location) :
    (pieces.filterMap parseComponent).foldl normalizeStep (componentsOf names) =
      componentsOf (pieces.foldl lexicalStep names) := by
  induction pieces generalizing names with
  | nil => rfl
  | cons piece rest ih =>
      have step := lexicalStep_component names piece
      rw [List.foldl_cons, ← ih, ← step]
      cases parsed : parseComponent piece with
      | none => rw [List.filterMap_cons_none parsed, Option.elim_none]
      | some component => rw [List.filterMap_cons_some parsed, List.foldl_cons, Option.elim_some]

theorem normalizeForMatch_lexical {path : Path} (absolute : isAbsolute path = true) :
    normalizeForMatch path = componentsOf (lexical path) := by
  rw [normalizeForMatch, components, if_pos absolute]
  exact foldl_lexical (path.splitOn separator) []

theorem rootDir_iff {path : Path} : Component.rootDir ∈ components path ↔ isAbsolute path = true := by
  constructor
  · intro member
    by_contra relative
    rw [components, if_neg relative, List.mem_append] at member
    rcases member with front | piece
    · split at front
      · cases List.mem_singleton.mp front
      · cases front
    · obtain ⟨piece, _, parsed⟩ := List.mem_filterMap.mp piece
      unfold parseComponent at parsed
      split at parsed <;> cases parsed
  · intro absolute
    rw [components, if_pos absolute]
    exact List.mem_cons_self

theorem affects_lexical {changed key : Path} (changedAbsolute : isAbsolute changed = true)
    (keyAbsolute : isAbsolute key = true) : affects changed key = decide (Above key changed) := by
  rw [affects, normalizeForMatch_lexical changedAbsolute, normalizeForMatch_lexical keyAbsolute, Bool.eq_iff_iff,
    List.isPrefixOf_iff_prefix, decide_eq_true_iff, componentsOf, componentsOf, List.cons_prefix_cons,
    List.prefix_map_iff_of_injective fun _ _ => Component.normal.inj]
  exact and_iff_right rfl

end Path

namespace ArchiveCache

/-! What an invalidation removes, and that it removes nothing else. -/

/-- A call that no other call overlaps, or an eviction. -/
inductive Operation where
  | getOrCreate (path : Path) (format : ArchiveFormat) (built : Except ArchiveError Archive)
  | invalidate (changedPath : Path)
  | evict (path : Path) (format : ArchiveFormat)

def Operation.apply (self : ArchiveCache Loaded) : Operation → ArchiveCache Loaded
  | .getOrCreate path format built => (self.getOrCreate path format built).2
  | .invalidate changedPath => (self.invalidate changedPath).2
  | .evict path format => self.remove path format

/-- A cache after operations one at a time. -/
def Reached (maxCapacity : Nat) (self : ArchiveCache Loaded) : Prop :=
  Reaches (fun before operation after => Operation.apply before operation = after) (fun _ _ => True) (.new maxCapacity)
    self

/-- The registry is a set: it does not hold a path twice. -/
def Distinct (self : ArchiveCache α) : Prop := (self.cachedKeys.map Path.components).Nodup

section Invariants

variable {self : ArchiveCache α} {path changedPath : Path} {format : ArchiveFormat} {key : List Component}

theorem insertKey_distinct {keys : List Path} (distinct : (keys.map Path.components).Nodup) (path : Path) :
    ((insertKey keys path).map Path.components).Nodup := by
  unfold insertKey
  split
  · exact distinct
  · rename_i absent
    rw [List.map_append, List.nodup_append]
    refine ⟨distinct, by simp, ?_⟩
    intro known member other own same
    obtain ⟨held, heldMember, rfl⟩ := List.mem_map.mp member
    rw [List.map_singleton, List.mem_singleton] at own
    exact absent (List.any_eq_true.mpr ⟨held, heldMember, same_iff.mpr (same.trans own).symm⟩)

theorem filter_distinct {keys : List Path} (distinct : (keys.map Path.components).Nodup) (test : Path → Bool) :
    ((keys.filter test).map Path.components).Nodup :=
  distinct.sublist (List.filter_sublist.map _)

theorem Distinct.registerKey (distinct : self.Distinct) (path : Path) : (self.registerKey path).Distinct := by
  unfold Distinct ArchiveCache.registerKey
  apply insertKey_distinct
  split
  · exact filter_distinct distinct _
  · exact distinct

theorem cachedKeys_getWith (path : Path) (format : ArchiveFormat) (loaded : α) :
    (self.getWith path format loaded).2.cachedKeys = self.cachedKeys := by
  unfold ArchiveCache.getWith
  split <;> rfl

theorem cachedKeys_invalidate (changedPath : Path) :
    (self.invalidate changedPath).2.cachedKeys =
      self.cachedKeys.filter fun key => !(self.victims changedPath).any (Path.same key) := by
  unfold ArchiveCache.invalidate
  dsimp only
  split
  · rename_i none
    simp [none]
  · rw [unregister, cachedKeys_removeAll]

theorem invalidate_victims (self : ArchiveCache α) (changedPath : Path) :
    (self.invalidate changedPath).1 = self.victims changedPath := by
  unfold ArchiveCache.invalidate
  dsimp only
  split <;> rfl

theorem kept_removeAll {gone : List Path} (spared : ∀ path ∈ gone, Path.components path ≠ key) :
    (gone.foldl removeBoth self).cache key format = self.cache key format := by
  induction gone generalizing self with
  | nil => rfl
  | cons path rest ih =>
      have other : ¬ (key = Path.components path ∧ format = .zip) :=
        fun same => spared path List.mem_cons_self same.1.symm
      have another : ¬ (key = Path.components path ∧ format = .tar) :=
        fun same => spared path List.mem_cons_self same.1.symm
      have here : (self.removeBoth path).cache key format = self.cache key format := by
        simp only [removeBoth, remove, if_neg other, if_neg another]
      rw [List.foldl_cons, ih fun path later => spared path (List.mem_cons_of_mem _ later), here]

/-- An entry goes if a victim has its key, and stays otherwise. -/
theorem cache_invalidate_eq (self : ArchiveCache α) (changedPath : Path) (key : List Component)
    (format : ArchiveFormat) :
    (self.invalidate changedPath).2.cache key format =
      if ∃ victim ∈ self.victims changedPath, Path.components victim = key then none else self.cache key format := by
  split
  · rename_i gone
    obtain ⟨victim, member, same⟩ := gone
    cases found : (self.invalidate changedPath).2.cache key format with
    | none => rfl
    | some value => exact absurd same ((cache_invalidate found).2 victim member)
  · rename_i spared
    have others : ∀ victim ∈ self.victims changedPath, Path.components victim ≠ key :=
      fun victim member same => spared ⟨victim, member, same⟩
    unfold ArchiveCache.invalidate
    dsimp only
    split
    · rfl
    · exact kept_removeAll others

theorem affects_same {left right : Path} (same : Path.components left = Path.components right) :
    Path.affects changedPath left = Path.affects changedPath right := by
  rw [Path.affects, Path.affects, Path.normalizeForMatch, Path.normalizeForMatch, same, ← Path.normalizeForMatch,
    ← Path.normalizeForMatch]

/-- With a registry that finds every entry, an invalidation drops exactly what the change affects. -/
theorem Covered.lookup_invalidate (covered : self.Covered) (changedPath path : Path) (format : ArchiveFormat) :
    (self.invalidate changedPath).2.lookup path format =
      if Path.affects changedPath path then none else self.lookup path format := by
  rw [lookup, lookup, cache_invalidate_eq]
  cases held : self.cache (Path.components path) format with
  | none => rw [ite_self, ite_self]
  | some value =>
      obtain ⟨known, member, same⟩ := covered _ _ _ held
      have victims : (∃ victim ∈ self.victims changedPath, Path.components victim = Path.components path) ↔
          Path.affects changedPath path = true := by
        constructor
        · intro removed
          obtain ⟨victim, victimMember, equal⟩ := removed
          rw [← affects_same equal]
          exact (List.mem_filter.mp victimMember).2
        · intro affected
          refine ⟨known, List.mem_filter.mpr ⟨member, ?_⟩, same⟩
          rw [affects_same same]
          exact affected
      simp only [victims]

/-- The registry loses the victims and nothing else. -/
theorem cachedKeys_invalidate_eq (self : ArchiveCache α) (changedPath : Path) :
    (self.invalidate changedPath).2.cachedKeys = self.cachedKeys.filter fun key => !Path.affects changedPath key := by
  rw [cachedKeys_invalidate]
  apply List.filter_congr
  intro key member
  congr 1
  rw [Bool.eq_iff_iff, List.any_eq_true]
  constructor
  · intro removed
    obtain ⟨victim, victimMember, same⟩ := removed
    rw [affects_same (same_iff.mp same)]
    exact (List.mem_filter.mp victimMember).2
  · intro affected
    exact ⟨key, List.mem_filter.mpr ⟨member, affected⟩, same_iff.mpr rfl⟩

/-- Nothing is left for a second invalidation to find. -/
theorem invalidate_again (self : ArchiveCache α) (changedPath : Path) :
    (self.invalidate changedPath).2.invalidate changedPath = ([], (self.invalidate changedPath).2) := by
  have none : (self.invalidate changedPath).2.victims changedPath = [] := by
    rw [victims, cachedKeys_invalidate_eq, List.filter_filter, List.filter_eq_nil_iff]
    intro key _
    cases Path.affects changedPath key <;> simp
  rw [ArchiveCache.invalidate, none]
  rfl

end Invariants

theorem Covered.apply {self : ArchiveCache Loaded} (covered : self.Covered) (operation : Operation) :
    (operation.apply self).Covered := by
  cases operation with
  | getOrCreate path format built => exact covered.getWith path format _
  | invalidate changedPath => exact covered.invalidate changedPath
  | evict path format => exact covered.remove path format

theorem Distinct.apply {self : ArchiveCache Loaded} (distinct : self.Distinct) (operation : Operation) :
    (operation.apply self).Distinct := by
  cases operation with
  | getOrCreate path format built =>
      have kept : (self.getWith path format (built.mapError ArchiveError.toString)).2.Distinct := by
        rw [Distinct, cachedKeys_getWith]
        exact distinct
      exact kept.registerKey path
  | invalidate changedPath =>
      rw [Operation.apply, Distinct, cachedKeys_invalidate]
      exact filter_distinct distinct _
  | evict path format => exact distinct

theorem Reached.apply {maxCapacity : Nat} {self : ArchiveCache Loaded} (reached : Reached maxCapacity self)
    (operation : Operation) : Reached maxCapacity (operation.apply self) :=
  reached.next trivial rfl

theorem Reached.invariants {maxCapacity : Nat} {self : ArchiveCache Loaded} (reached : Reached maxCapacity self) :
    self.Covered ∧ self.Distinct := by
  apply Reaches.invariant reached ⟨.new maxCapacity, List.nodup_nil⟩
  rintro before operation _ ⟨covered, distinct⟩ _ rfl
  exact ⟨covered.apply operation, distinct.apply operation⟩

/-- The registry may hold a path under other bytes than a caller asks for it, but never a
relative path for an absolute one. -/
theorem Covered.absolute {self : ArchiveCache α} (covered : self.Covered)
    (rooted : ∀ key ∈ self.cachedKeys, Path.isAbsolute key = true) {path : Path} {format : ArchiveFormat} {value : α}
    (held : self.lookup path format = some value) : Path.isAbsolute path = true := by
  obtain ⟨known, member, same⟩ := covered _ _ _ held
  rw [← Path.rootDir_iff, ← same]
  exact Path.rootDir_iff.mpr (rooted known member)

/-- An invalidation drops the entries of the changed path and of its ancestors, in both
formats, leaves every other entry as it was, answers with the registered paths that it
dropped, none twice, and a second one finds nothing to do. -/
theorem invalidation_exact {maxCapacity : Nat} {self : ArchiveCache Loaded} (reached : Reached maxCapacity self)
    (rooted : ∀ key ∈ self.cachedKeys, Path.isAbsolute key = true) {changedPath : Path}
    (absolute : Path.isAbsolute changedPath = true) :
    let gone := (self.invalidate changedPath).1
    let after := (self.invalidate changedPath).2
    (∀ path format, after.lookup path format =
        if Path.Above path changedPath then none else self.lookup path format) ∧
      after.cachedKeys = self.cachedKeys.filter (fun key => !decide (Path.Above key changedPath)) ∧
      gone = self.cachedKeys.filter (fun key => decide (Path.Above key changedPath)) ∧
      (gone.map Path.components).Nodup ∧ after.invalidate changedPath = ([], after) := by
  intro gone after
  obtain ⟨covered, distinct⟩ := reached.invariants
  have affected : ∀ key ∈ self.cachedKeys, Path.affects changedPath key = decide (Path.Above key changedPath) :=
    fun key member => Path.affects_lexical absolute (rooted key member)
  have dropped : gone = self.victims changedPath := invalidate_victims self changedPath
  refine ⟨?_, ?_, ?_, ?_, invalidate_again self changedPath⟩
  · intro path format
    rw [covered.lookup_invalidate]
    cases held : self.lookup path format with
    | none => rw [ite_self, ite_self]
    | some value =>
        have meaning := Path.affects_lexical absolute (covered.absolute rooted held)
        rw [meaning]
        simp only [decide_eq_true_eq]
  · rw [cachedKeys_invalidate_eq]
    exact List.filter_congr fun key member => congrArg _ (affected key member)
  · rw [dropped]
    exact List.filter_congr affected
  · rw [dropped]
    exact filter_distinct distinct _

/-- `/d` as tar and `/de` as zip. -/
def siblings : ArchiveCache Loaded :=
  let asked := ((new 8).getOrCreate [47, 100] .tar (.ok (.tar Tar.smallArchive))).2
  (asked.getOrCreate [47, 100, 101] .zip (.error (.unexpectedError ""))).2

/-- `/d/../d/x` has changed. -/
theorem invalidation_exact_siblings :
    let after := (siblings.invalidate [47, 100, 47, 46, 46, 47, 100, 47, 120]).2
    after.lookup [47, 100] .tar = none ∧ after.lookup [47, 100, 101] .zip = siblings.lookup [47, 100, 101] .zip := by
  have first : Reached 8 ((new 8).getOrCreate [47, 100] .tar (.ok (.tar Tar.smallArchive))).2 :=
    .single trivial (show Operation.apply _ (.getOrCreate [47, 100] .tar (.ok (.tar Tar.smallArchive))) = _ from rfl)
  have reached : Reached 8 siblings :=
    first.next trivial
      (show Operation.apply _ (.getOrCreate [47, 100, 101] .zip (.error (.unexpectedError ""))) = _ from rfl)
  have exact := (invalidation_exact reached (by decide +kernel)
    (show Path.isAbsolute [47, 100, 47, 46, 46, 47, 100, 47, 120] = true from rfl)).1
  exact ⟨(exact [47, 100] .tar).trans (if_pos (by decide +kernel)),
    (exact [47, 100, 101] .zip).trans (if_neg (by decide +kernel))⟩

end ArchiveCache

end Raas
