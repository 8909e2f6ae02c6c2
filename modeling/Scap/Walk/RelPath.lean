import Scap.Walk.Walker

/-!
# Root-relative paths

A root-relative path is a byte string that the walk builds by joining entry names, and the kernel
takes it apart again.  `render` builds the path of a list of names and `components` takes it apart;
they are inverse to each other on names a directory can hold.
-/

namespace Scap

/-- The components the kernel resolves a path by. -/
def components (path : Bytes) : List Bytes := (path.splitOn slash).filter (· ≠ [])

/-- The path of a list of names, as the walk joins it. -/
def render (names : List Bytes) : Bytes := names.foldl joinRel []

/-- A name a directory entry other than `.` and `..` can have. -/
structure ValidName (name : Bytes) : Prop where
  nonempty : name ≠ []
  noSlash : slash ∉ name
  noNul : 0 ∉ name
  ne_dot : name ≠ dot
  ne_dotDot : name ≠ dotDot

instance (name : Bytes) : Decidable (ValidName name) :=
  decidable_of_iff (name ≠ [] ∧ slash ∉ name ∧ 0 ∉ name ∧ name ≠ dot ∧ name ≠ dotDot)
    ⟨fun ⟨h₁, h₂, h₃, h₄, h₅⟩ => ⟨h₁, h₂, h₃, h₄, h₅⟩, fun ⟨h₁, h₂, h₃, h₄, h₅⟩ =>
      ⟨h₁, h₂, h₃, h₄, h₅⟩⟩

/-- A list of such names. -/
def ValidPath (names : List Bytes) : Prop := ∀ name ∈ names, ValidName name

instance (names : List Bytes) : Decidable (ValidPath names) :=
  inferInstanceAs (Decidable (∀ name ∈ names, ValidName name))

/-- `.git` is a name. -/
lemma validName_dotGit : ValidName dotGit := by decide

/-- The path of the root is valid. -/
@[simp] lemma validPath_nil : ValidPath [] := by simp [ValidPath]

/-- A path is valid if both of its parts are. -/
@[simp] lemma validPath_append {p q : List Bytes} :
    ValidPath (p ++ q) ↔ ValidPath p ∧ ValidPath q := by
  simp [ValidPath, or_imp, forall_and]

/-- A path of one name is valid if the name is. -/
@[simp] lemma validPath_singleton {name : Bytes} : ValidPath [name] ↔ ValidName name := by
  simp [ValidPath]

/-- What lies above a path is not below it. -/
lemma ne_append_singleton_of_isPrefix {p q : List Bytes} {name : Bytes} (h : q <+: p) :
    q ≠ p ++ [name] := by
  rintro rfl
  exact absurd h.length_le (by simp)

/-- The beginning of a valid path is valid. -/
lemma ValidPath.of_prefix {p q : List Bytes} (h : ValidPath q) (hp : p <+: q) : ValidPath p :=
  fun name hname => h name (hp.subset hname)

/-- The root has the empty relative path. -/
@[simp] lemma render_nil : render [] = [] := rfl

/-- The relative path of an entry is joined to that of its directory. -/
@[simp] lemma render_append_singleton (p : List Bytes) (name : Bytes) :
    render (p ++ [name]) = joinRel (render p) name := by
  simp [render, List.foldl_append]

/-- The path of a nonempty name is not empty. -/
lemma joinRel_ne_nil {rel name : Bytes} (h : name ≠ []) : joinRel rel name ≠ [] := by
  unfold joinRel
  split <;> simp [h]

/-- Only the root renders to the empty path. -/
lemma render_eq_nil_iff {p : List Bytes} (h : ValidPath p) : render p = [] ↔ p = [] := by
  rcases List.eq_nil_or_concat' p with rfl | ⟨q, name, rfl⟩
  · simp
  · have hname : name ≠ [] := (h name (by simp)).nonempty
    simp [joinRel_ne_nil hname]

/-- Splitting a joined path splits off its last name. -/
lemma splitOn_joinRel {rel name : Bytes} (hrel : rel ≠ []) (hname : slash ∉ name) :
    (joinRel rel name).splitOn slash = rel.splitOn slash ++ [name] := by
  rw [joinRel, if_neg (by simpa using hrel), List.splitOn_append_cons_self,
    List.splitOn_eq_singleton hname]

/-- The path of a nonempty list of names splits into these names. -/
lemma splitOn_render {p : List Bytes} (h : ValidPath p) (hne : p ≠ []) :
    (render p).splitOn slash = p := by
  induction p using List.reverseRecOn with
  | nil => exact absurd rfl hne
  | append_singleton p name ih =>
    obtain ⟨hp, hname⟩ := validPath_append.mp h
    rw [validPath_singleton] at hname
    rw [render_append_singleton]
    rcases eq_or_ne p [] with rfl | hpne
    · exact List.splitOn_eq_singleton hname.noSlash
    · rw [splitOn_joinRel (by rwa [Ne, render_eq_nil_iff hp]) hname.noSlash, ih hp hpne]

/-- The components of a relative path are the names it is made of. -/
@[simp] lemma components_render {p : List Bytes} (h : ValidPath p) : components (render p) = p := by
  rcases eq_or_ne p [] with rfl | hne
  · rfl
  · rw [components, splitOn_render h hne]
    exact List.filter_eq_self.mpr fun name hname => by simpa using (h name hname).nonempty

/-- Two valid paths have two relative paths. -/
lemma render_injective {p q : List Bytes} (hp : ValidPath p) (hq : ValidPath q)
    (h : render p = render q) : p = q := by
  rw [← components_render hp, h, components_render hq]

/-- Joining a name adds one component, whatever the path. -/
@[simp] lemma components_joinRel {rel name : Bytes} (h : ValidName name) :
    components (joinRel rel name) = components rel ++ [name] := by
  have hname : [name].filter (· ≠ []) = [name] := by simp [h.nonempty]
  rcases eq_or_ne rel [] with rfl | hrel
  · simpa [components, joinRel, List.splitOn_eq_singleton h.noSlash] using hname
  · rw [components, splitOn_joinRel hrel h.noSlash, List.filter_append, hname, components]

/-- A path below a directory has a slash. -/
lemma slash_mem_joinRel {rel name : Bytes} (hrel : rel ≠ []) : slash ∈ joinRel rel name := by
  simp [joinRel, hrel]

/-- A joined path determines its parts. -/
lemma joinRel_injective {rel rel' name name' : Bytes} (h : ValidName name) (h' : ValidName name')
    (heq : joinRel rel name = joinRel rel' name') : rel = rel' ∧ name = name' := by
  have hnames : name = name' := by
    have := congrArg (fun path => (components path).getLast?) heq
    simpa [h, h'] using this
  subst hnames
  refine ⟨?_, rfl⟩
  rcases eq_or_ne rel [] with rfl | hrel <;> rcases eq_or_ne rel' [] with rfl | hrel'
  · rfl
  · exact absurd (heq ▸ slash_mem_joinRel hrel' : slash ∈ joinRel [] name) h.noSlash
  · exact absurd (heq ▸ slash_mem_joinRel hrel : slash ∈ joinRel [] name) h.noSlash
  · simpa [joinRel, hrel, hrel'] using heq

/-- A path holds only `/` and the bytes of its names. -/
lemma mem_render {p : List Bytes} {b : UInt8} (h : b ∈ render p) :
    b = slash ∨ ∃ name ∈ p, b ∈ name := by
  induction p using List.reverseRecOn with
  | nil => simp at h
  | append_singleton p name ih =>
    rw [render_append_singleton, joinRel] at h
    split at h
    · exact .inr ⟨name, by simp, h⟩
    · rcases List.mem_append.mp h with h | h
      · obtain h | ⟨n, hn, hb⟩ := ih h
        · exact .inl h
        · exact .inr ⟨n, by simp [hn], hb⟩
      · rcases List.mem_cons.mp h with h | h
        · exact .inl h
        · exact .inr ⟨name, by simp, h⟩

end Scap
