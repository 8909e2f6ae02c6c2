import Scap.Config.Values

/-!
# The two configuration backends

One backend parses the gitconfig in process and reads it through `gix-config` (`from_file`,
`src/config.rs`); the other reads what `git config --list -z --show-origin` prints (`from_listing`,
`src/config/git_backend.rs`).  `gix-config` is third-party code: its accessors are defined here as
they are documented, over the sections and keys in file order.  `listing` is what git prints of the
same sections.
-/

namespace Scap

namespace Config

/-- A section of a gitconfig. -/
structure Section where
  /-- Where it comes from, as git prints it. -/
  origin : Bytes
  name : Bytes
  subsection : Option Bytes
  /-- The keys in order; one without `=` has no value. -/
  keys : List (Bytes × Option Bytes)
deriving DecidableEq

/-- What both backends collect from the gitconfig. -/
structure Collected where
  roots : List PathBuf
  urlScopedRoots : List PathBuf
  user : Option Str
  completeUser : Bool
  listExclude : List Str
  listCache : Bool
deriving DecidableEq

/-- Nothing is configured. -/
def Collected.empty : Collected := ⟨[], [], none, false, [], false⟩

/-! ## Accessors -/

namespace Section

/-- The section has this name and no subsection. -/
def IsPlain (sec : Section) (name : Bytes) : Prop :=
  eqIgnoreAsciiCase sec.name name ∧ sec.subsection = none

instance (sec : Section) (name : Bytes) : Decidable (sec.IsPlain name) :=
  inferInstanceAs (Decidable (_ ∧ _))

/-- `Section::values`; a key without `=` counts for nothing (see `fromFile_explicit`). -/
def values (sec : Section) (name : Bytes) : List Bytes :=
  sec.keys.filterMap fun (key, value) => if eqIgnoreAsciiCase key name then value else none

/-- `Section::value_implicit`: the last key of the name, if there is one, and its value, if it has
one. -/
def valueImplicit (sec : Section) (name : Bytes) : Option (Option Bytes) :=
  (sec.keys.filterMap fun (key, value) =>
    if eqIgnoreAsciiCase key name then some value else none).getLast?

/-- `Section::value`: the value of the last key of the name, if it has one. -/
def value (sec : Section) (name : Bytes) : Option Bytes := (sec.valueImplicit name).join

end Section

/-- `File::strings`. -/
def strings (file : List Section) (sectionName name : Bytes) : List Bytes :=
  (file.filter fun sec => decide (sec.IsPlain sectionName)).flatMap fun sec => sec.values name

/-- `File::string`: the sections are asked for their `value`, the last one first. -/
def string (file : List Section) (sectionName name : Bytes) : Option Bytes :=
  file.reverse.findSome? fun sec => if sec.IsPlain sectionName then sec.value name else none

/-- A key without a value hides the values before it in its section, and none before that. -/
example : let scap := fun keys => Section.mk [] (ascii "scap".toList) none keys
    let user := ascii "user".toList
    string [scap [(user, some [1]), (user, none)]] (ascii "scap".toList) user = none ∧
      string [scap [(user, some [1])], scap [(user, none)]] (ascii "scap".toList) user =
        some [1] := by
  decide

/-- `boolean_of`. -/
def booleanOf (file : List Section) (sectionName name : Bytes) : Option Bool :=
  file.foldl (fun found sec =>
    if sec.IsPlain sectionName then
      match sec.valueImplicit name with
      | some value => some (gitBoolean value)
      | none => found
    else found) none

section

variable (interpolate : Env → Bytes → Option PathBuf) (lossy : Bytes → Str)

/-! ## In process -/

/-- The `[scap "<sub>"] root` values, in file order. -/
def urlScopedValues (file : List Section) : List Bytes :=
  (file.filter fun sec =>
    decide (eqIgnoreAsciiCase sec.name (ascii "scap".toList) ∧ sec.subsection ≠ none)).flatMap
      fun sec => sec.values (ascii "root".toList)

/-- What `from_file` collects. -/
def collectFile (env : Env) (file : List Section) : Collected where
  roots := (strings file (ascii "scap".toList) (ascii "root".toList)).filterMap
    (interpolateValue interpolate lossy env)
  urlScopedRoots := (urlScopedValues file).filterMap (interpolateValue interpolate lossy env)
  user := (string file (ascii "scap".toList) (ascii "user".toList)).map fun v => trim (lossy v)
  completeUser :=
    (booleanOf file (ascii "scap".toList) (ascii "completeUser".toList)).getD false
  listExclude := (strings file (ascii "scap".toList) (ascii "listExclude".toList)).map lossy
  listCache := (booleanOf file (ascii "scap".toList) (ascii "listCache".toList)).getD false

/-- `from_file`; without any source there is no file. -/
def fromFile (file : Option (List Section)) (env : Env) : ConfigSnapshot :=
  let collected := match file with
    | some file => collectFile interpolate lossy env file
    | none => .empty
  { env := env
    roots := collected.roots
    urlScopedRoots := collected.urlScopedRoots
    user := collected.user
    completeUser := collected.completeUser
    listExclude := effectiveListExclude lossy env collected.listExclude
    listCache := effectiveListCache env collected.listCache
    backend := .inProcess
    reason := if collected.urlScopedRoots = [] then .inProcess else .urlSections }

/-! ### Keys without a value -/

/-- The section with an empty value for every key without one. -/
def Section.explicit (sec : Section) : Section :=
  { sec with keys := sec.keys.map fun (key, value) => (key, some (value.getD [])) }

/-- What takes no empty value takes the same from a section as from its explicit form. -/
lemma Section.filterMap_values_explicit {β : Type} {f : Bytes → Option β} (hf : f [] = none)
    (sec : Section) (name : Bytes) :
    (sec.explicit.values name).filterMap f = (sec.values name).filterMap f := by
  obtain ⟨origin, sectionName, sub, keys⟩ := sec
  simp only [explicit, values, List.filterMap_map, List.filterMap_filterMap]
  refine List.filterMap_congr fun key _ => ?_
  obtain ⟨key, value⟩ := key
  by_cases hname : eqIgnoreAsciiCase key name
  · cases value <;> simp [hname, hf]
  · simp [hname]

/-- What takes no empty value takes the same from the explicit forms of some sections. -/
lemma filterMap_flatMap_values_explicit {β : Type} {f : Bytes → Option β} (hf : f [] = none)
    {p : Section → Bool} (hp : ∀ sec : Section, p sec.explicit = p sec) (name : Bytes)
    (file : List Section) :
    (((file.map Section.explicit).filter p).flatMap fun sec => sec.values name).filterMap f =
      ((file.filter p).flatMap fun sec => sec.values name).filterMap f := by
  have hpred : p ∘ Section.explicit = p := funext hp
  rw [List.filter_map, hpred, List.flatMap_map, List.filterMap_flatMap, List.filterMap_flatMap]
  exact List.flatMap_congr fun sec _ => sec.filterMap_values_explicit hf name

/-- The roots and the exclusions are the same whether `Section::values` counts a key without `=` for
nothing or for an empty value. -/
theorem fromFile_explicit (hlossy : lossy [] = []) (file : List Section) (env : Env) :
    let explicit := fromFile interpolate lossy (some (file.map Section.explicit)) env
    let plain := fromFile interpolate lossy (some file) env
    explicit.roots = plain.roots ∧ explicit.urlScopedRoots = plain.urlScopedRoots ∧
      explicit.listExclude = plain.listExclude := by
  have hroot : interpolateValue interpolate lossy env [] = none := if_pos rfl
  have hexclude : (normalizeExclude ∘ lossy) [] = none := by
    rw [Function.comp_apply, hlossy]
    rfl
  refine ⟨?_, ?_, ?_⟩
  · exact filterMap_flatMap_values_explicit hroot (fun _ => rfl) _ file
  · exact filterMap_flatMap_values_explicit hroot (fun _ => rfl) _ file
  · simp only [fromFile, collectFile, effectiveListExclude]
    cases env.scapListExclude.filter (· ≠ []) with
    | some value => rfl
    | none =>
      simp only [List.filterMap_map]
      exact filterMap_flatMap_values_explicit hexclude (fun _ => rfl) _ file

/-! ## From git's listing -/

/-- The records of a listing: each second field. -/
def records : List Bytes → List Bytes
  | _origin :: record :: rest => record :: records rest
  | _ => []

/-- The key and the value of a record. -/
def parseRecord (record : Bytes) : Option (Str × Option Bytes) :=
  if record = [] then none
  else
    let (key, value) := match splitFirst 0x0a record with
      | some (key, value) => (key, some value)
      | none => (record, none)
    (fromUtf8 key).map fun key => (key, value)

/-- `entries`. -/
def entries (listing : Bytes) : List (Str × Option Bytes) :=
  (records (listing.splitOn 0)).filterMap parseRecord

/-- What `from_listing` does with one entry. -/
def addEntry (env : Env) (c : Collected) (entry : Str × Option Bytes) : Collected :=
  let (key, value) := entry
  match stripStart "scap.".toList key with
  | none => c
  | some rest =>
    match splitLast '.' rest with
    | none =>
      if rest = "root".toList then
        { c with roots := c.roots ++ (value.bind (interpolateValue interpolate lossy env)).toList }
      else if rest = "user".toList then
        { c with user := some ((value.map fun v => trim (lossy v)).getD []) }
      else if rest = "completeuser".toList then { c with completeUser := gitBoolean value }
      else if rest = "listexclude".toList then
        { c with listExclude := c.listExclude ++ (value.map lossy).toList }
      else if rest = "listcache".toList then { c with listCache := gitBoolean value }
      else c
    | some (_, name) =>
      if name = "root".toList then
        { c with
          urlScopedRoots :=
            c.urlScopedRoots ++ (value.bind (interpolateValue interpolate lossy env)).toList }
      else c

/-- `from_listing`. -/
def fromListing (listing : Bytes) (env : Env) (reason : Reason) : ConfigSnapshot :=
  let collected := (entries listing).foldl (addEntry interpolate lossy env) .empty
  { env := env
    roots := collected.roots
    urlScopedRoots := collected.urlScopedRoots
    user := collected.user
    completeUser := collected.completeUser
    listExclude := effectiveListExclude lossy env collected.listExclude
    listCache := effectiveListCache env collected.listCache
    backend := .git
    reason := reason }

end

/-! ## What git prints -/

/-- The name git prints for a key: the section and the key in lower case, the subsection as it
is. -/
def Section.fullKey (sec : Section) (key : Bytes) : Bytes :=
  match sec.subsection with
  | none => lower sec.name ++ 0x2e :: lower key
  | some sub => lower sec.name ++ 0x2e :: (sub ++ 0x2e :: lower key)

/-- The record git prints for a key. -/
def Section.record (sec : Section) (key : Bytes) (value : Option Bytes) : Bytes :=
  match value with
  | none => sec.fullKey key
  | some value => sec.fullKey key ++ 0x0a :: value

/-- `git config --list -z --show-origin`. -/
def listing (file : List Section) : Bytes :=
  file.flatMap fun sec => sec.keys.flatMap fun (key, value) =>
    sec.origin ++ 0 :: (sec.record key value ++ [0])

end Config

end Scap
