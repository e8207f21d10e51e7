import Raas.Archive.Dispatch
import Raas.Os.Walk

namespace Raas

/-! The archive cache: a moka cache and a registry of the paths in it. -/

namespace Path

/-- One component pushed on, or popped off, the path that `normalize_for_match` builds. -/
def normalizeStep (normalized : List Component) : Component → List Component
  | .curDir => normalized
  | .parentDir =>
      match normalized.getLast? with
      | some (.normal _) => normalized.dropLast
      | _ => normalized
  | .rootDir => [.rootDir]
  | .normal name => normalized ++ [.normal name]

/-- `normalize_for_match` on Unix; the resulting path is kept as its components. -/
def normalizeForMatch (path : Path) : List Component := (components path).foldl normalizeStep []

/-- `changed.starts_with(normalize_for_match(key))` -/
def affects (changed key : Path) : Bool := (normalizeForMatch key).isPrefixOf (normalizeForMatch changed)

theorem foldl_normal (names : Location) (front : List Component) :
    (names.map Component.normal).foldl normalizeStep front = front ++ names.map .normal := by
  induction names generalizing front with
  | nil => simp
  | cons name rest ih =>
      rw [List.map_cons, List.foldl_cons, ih, normalizeStep, List.append_assoc]
      rfl

theorem normalizeForMatch_location {path : Path} {location : Location}
    (located : components path = componentsOf location) : normalizeForMatch path = componentsOf location := by
  rw [normalizeForMatch, located, componentsOf, List.foldl_cons, foldl_normal]
  rfl

/-- A change affects the locations on the way to it, itself included. -/
theorem affects_iff {changed key : Path} {below above : Location} (changedAt : components changed = componentsOf below)
    (keyAt : components key = componentsOf above) : affects changed key = true ↔ above <+: below := by
  rw [affects, normalizeForMatch_location changedAt, normalizeForMatch_location keyAt, List.isPrefixOf_iff_prefix,
    componentsOf, componentsOf, List.cons_prefix_cons, List.prefix_map_iff_of_injective fun _ _ => Component.normal.inj]
  exact and_iff_right rfl

end Path

/-- `moka` compares keys as paths are compared, by their components. -/
structure ArchiveCache (α : Type) where
  cache : List Component → ArchiveFormat → Option α
  cachedKeys : List Path
  maxCapacity : Nat

namespace ArchiveCache

def new (maxCapacity : Nat) : ArchiveCache α where
  cache := fun _ _ => none
  cachedKeys := []
  maxCapacity

def lookup (self : ArchiveCache α) (path : Path) (format : ArchiveFormat) : Option α :=
  self.cache (Path.components path) format

def insert (self : ArchiveCache α) (path : Path) (format : ArchiveFormat) (value : α) : ArchiveCache α :=
  { self with cache := fun key other =>
      if key = Path.components path ∧ other = format then some value else self.cache key other }

/-- `moka`'s `invalidate`, and the effect of an eviction. -/
def remove (self : ArchiveCache α) (path : Path) (format : ArchiveFormat) : ArchiveCache α :=
  { self with cache := fun key other =>
      if key = Path.components path ∧ other = format then none else self.cache key other }

/-- `moka`'s `get_with` with a loader that answers `loaded`, run without interruption. -/
def getWith (self : ArchiveCache α) (path : Path) (format : ArchiveFormat) (loaded : α) : α × ArchiveCache α :=
  match self.lookup path format with
  | some value => (value, self)
  | none => (loaded, self.insert path format loaded)

def isCached (self : ArchiveCache α) (path : Path) : Bool :=
  (self.lookup path .tar).isSome || (self.lookup path .zip).isSome

def pruneThreshold (self : ArchiveCache α) : Nat := max (min (self.maxCapacity * 4) (u64Size - 1)) 8

/-- `HashSet::insert`, which keeps a path that is there already. -/
def insertKey (keys : List Path) (path : Path) : List Path :=
  if keys.any (Path.same path) then keys else keys ++ [path]

def registerKey (self : ArchiveCache α) (path : Path) : ArchiveCache α :=
  let keys := if self.pruneThreshold < self.cachedKeys.length then self.cachedKeys.filter self.isCached
    else self.cachedKeys
  { self with cachedKeys := insertKey keys path }

def victims (self : ArchiveCache α) (changedPath : Path) : List Path :=
  self.cachedKeys.filter (Path.affects changedPath)

def removeBoth (self : ArchiveCache α) (path : Path) : ArchiveCache α :=
  (self.remove path .tar).remove path .zip

def unregister (self : ArchiveCache α) (gone : List Path) : ArchiveCache α :=
  { self with cachedKeys := self.cachedKeys.filter fun key => !gone.any (Path.same key) }

def invalidate (self : ArchiveCache α) (changedPath : Path) : List Path × ArchiveCache α :=
  let gone := self.victims changedPath
  if gone = [] then (gone, self) else (gone, (gone.foldl removeBoth self).unregister gone)

abbrev Loaded := Except String Archive

/-- `get_or_create` without interruption; `built` is what `create_archive` would answer. -/
def getOrCreate (self : ArchiveCache Loaded) (path : Path) (format : ArchiveFormat)
    (built : Except ArchiveError Archive) : Except String Archive × ArchiveCache Loaded :=
  let (result, after) := self.getWith path format (built.mapError ArchiveError.toString)
  (result.mapError fun reason => "创建随机访问存档失败: " ++ reason, after.registerKey path)

/-! What each operation does to the entries and to the registry. -/

def Registered (self : ArchiveCache α) (key : List Component) : Prop :=
  ∃ known ∈ self.cachedKeys, Path.components known = key

/-- Every entry can be found through the registry. -/
def Covered (self : ArchiveCache α) : Prop :=
  ∀ key format value, self.cache key format = some value → self.Registered key

section Operations

variable {self : ArchiveCache α} {path changedPath : Path} {format other : ArchiveFormat} {value : α}
  {key : List Component}

theorem same_iff {left right : Path} : Path.same left right = true ↔ Path.components left = Path.components right := by
  rw [Path.same, decide_eq_true_iff]

theorem getWith_cases (self : ArchiveCache α) (path : Path) (format : ArchiveFormat) (loaded : α) :
    (∃ value, self.lookup path format = some value ∧ self.getWith path format loaded = (value, self)) ∨
      (self.lookup path format = none ∧
        self.getWith path format loaded = (loaded, self.insert path format loaded)) := by
  unfold getWith
  cases held : self.lookup path format with
  | none => exact .inr ⟨rfl, rfl⟩
  | some value => exact .inl ⟨value, rfl, rfl⟩

theorem insertKey_found {keys : List Path} :
    (∃ known ∈ insertKey keys path, Path.components known = key) ↔
      (∃ known ∈ keys, Path.components known = key) ∨ Path.components path = key := by
  unfold insertKey
  split
  · rename_i present
    obtain ⟨held, member, same⟩ := List.any_eq_true.mp present
    rw [same_iff] at same
    constructor
    · exact .inl
    · intro either
      rcases either with found | rfl
      · exact found
      · exact ⟨held, member, same.symm⟩
  · simp only [List.mem_append, List.mem_singleton]
    constructor
    · intro cached
      obtain ⟨known, member | rfl, same⟩ := cached
      · exact .inl ⟨known, member, same⟩
      · exact .inr same
    · intro either
      rcases either with ⟨known, member, same⟩ | new
      · exact ⟨known, .inl member, same⟩
      · exact ⟨path, .inr rfl, new⟩

theorem insertKey_length (keys : List Path) (path : Path) : (insertKey keys path).length ≤ keys.length + 1 := by
  unfold insertKey
  split
  · omega
  · rw [List.length_append, List.length_singleton]

theorem isCached_of_present {known : Path} (present : self.cache (Path.components known) format = some value) :
    self.isCached known = true := by
  cases format with
  | tar => simp [isCached, lookup, present]
  | zip => simp [isCached, lookup, present]

theorem registerKey_own (self : ArchiveCache α) (path : Path) :
    (self.registerKey path).Registered (Path.components path) :=
  insertKey_found.mpr (.inr rfl)

theorem Registered.registerKey (registered : self.Registered key) (present : self.cache key format = some value)
    (path : Path) : (self.registerKey path).Registered key := by
  refine insertKey_found.mpr (.inl ?_)
  obtain ⟨known, member, same⟩ := registered
  split
  · rw [← same] at present
    exact ⟨known, List.mem_filter.mpr ⟨member, isCached_of_present present⟩, same⟩
  · exact ⟨known, member, same⟩

theorem lookup_insert (self : ArchiveCache α) (path : Path) (format : ArchiveFormat) (value : α) :
    (self.insert path format value).lookup path format = some value :=
  if_pos ⟨rfl, rfl⟩

theorem cache_remove (found : (self.remove path format).cache key other = some value) :
    self.cache key other = some value ∧ ¬ (key = Path.components path ∧ other = format) := by
  simp only [remove] at found
  split at found
  · simp at found
  · rename_i kept
    exact ⟨found, kept⟩

theorem cache_removeBoth (found : (self.removeBoth path).cache key format = some value) :
    self.cache key format = some value ∧ Path.components path ≠ key := by
  obtain ⟨kept, notZip⟩ := cache_remove found
  obtain ⟨kept, notTar⟩ := cache_remove kept
  refine ⟨kept, ?_⟩
  intro same
  subst same
  cases format with
  | tar => exact notTar ⟨rfl, rfl⟩
  | zip => exact notZip ⟨rfl, rfl⟩

theorem cache_removeAll {gone : List Path} (found : (gone.foldl removeBoth self).cache key format = some value) :
    self.cache key format = some value ∧ ∀ path ∈ gone, Path.components path ≠ key := by
  induction gone generalizing self with
  | nil => exact ⟨found, by simp⟩
  | cons path rest ih =>
      obtain ⟨kept, others⟩ := ih found
      obtain ⟨kept, here⟩ := cache_removeBoth kept
      refine ⟨kept, ?_⟩
      intro path' member
      rcases List.mem_cons.mp member with rfl | later
      · exact here
      · exact others path' later

theorem cachedKeys_removeAll (gone : List Path) : (gone.foldl removeBoth self).cachedKeys = self.cachedKeys := by
  induction gone generalizing self with
  | nil => rfl
  | cons path rest ih => exact ih

theorem cache_invalidate (found : (self.invalidate changedPath).2.cache key format = some value) :
    self.cache key format = some value ∧ ∀ victim ∈ self.victims changedPath, Path.components victim ≠ key := by
  unfold invalidate at found
  dsimp only at found
  split at found
  · rename_i none
    refine ⟨found, ?_⟩
    rw [none]
    simp
  · exact cache_removeAll found

theorem Registered.invalidate (registered : self.Registered key)
    (spared : ∀ victim ∈ self.victims changedPath, Path.components victim ≠ key) :
    (self.invalidate changedPath).2.Registered key := by
  obtain ⟨known, member, same⟩ := registered
  unfold ArchiveCache.invalidate
  dsimp only
  split
  · exact ⟨known, member, same⟩
  · refine ⟨known, ?_, same⟩
    simp only [unregister, cachedKeys_removeAll]
    refine List.mem_filter.mpr ⟨member, ?_⟩
    rw [Bool.not_eq_true', List.any_eq_false]
    intro victim gone equal
    exact spared victim gone ((same_iff.mp equal).symm.trans same)

theorem Covered.new (maxCapacity : Nat) : (new maxCapacity : ArchiveCache α).Covered :=
  fun _ _ _ found => by simp [ArchiveCache.new] at found

theorem Covered.getWith (covered : self.Covered) (path : Path) (format : ArchiveFormat) (loaded : α) :
    ((self.getWith path format loaded).2.registerKey path).Covered := by
  intro key other value found
  rcases getWith_cases self path format loaded with ⟨held, _, answered⟩ | ⟨_, answered⟩
  · rw [answered] at found ⊢
    exact (covered key other value found).registerKey found path
  · rw [answered] at found ⊢
    by_cases own : key = Path.components path
    · rw [own]
      exact registerKey_own _ path
    · have before : self.cache key other = some value := by
        simpa only [registerKey, insert, own, false_and, if_false] using found
      have stays : (self.insert path format loaded).Registered key := covered key other value before
      exact stays.registerKey found path

theorem Covered.remove (covered : self.Covered) (path : Path) (format : ArchiveFormat) :
    (self.remove path format).Covered := by
  intro key other value found
  exact covered key other value (cache_remove found).1

theorem Covered.invalidate (covered : self.Covered) (changedPath : Path) :
    (self.invalidate changedPath).2.Covered := by
  intro key other value found
  obtain ⟨before, spared⟩ := cache_invalidate found
  exact (covered key other value before).invalidate spared

/-- An invalidation removes every entry that a registered path above the change has. -/
theorem Covered.spared (covered : self.Covered)
    (found : (self.invalidate changedPath).2.cache key format = some value) :
    ∃ known ∈ self.cachedKeys, Path.components known = key ∧ Path.affects changedPath known = false := by
  obtain ⟨before, spared⟩ := cache_invalidate found
  obtain ⟨known, member, same⟩ := covered key format value before
  refine ⟨known, member, same, ?_⟩
  by_contra affected
  rw [Bool.not_eq_false] at affected
  exact spared known (List.mem_filter.mpr ⟨member, affected⟩) same

end Operations

end ArchiveCache

end Raas
