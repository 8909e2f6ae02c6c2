import Scap.Config.Backends

/-!
# When the two backends agree

`backends_agree` says of every gitconfig when the two backends produce the same settings.  Plain
keys are read alike, but for a `scap.user` without `=`: one backend goes on to the section before,
the other takes the key for empty.  The url-scoped roots differ when a subsection is not UTF-8,
since the reader of git's listing drops such keys, and when a section's name goes on after `scap.`,
since it cannot tell such a name from a subsection.
-/

namespace Scap

namespace Config

/-- The bytes a section's name may have. -/
def isNameByte (b : UInt8) : Bool :=
  (0x30 ≤ b && b ≤ 0x39) || (0x41 ≤ b && b ≤ 0x5a) || (0x61 ≤ b && b ≤ 0x7a) || b = 0x2d || b = 0x2e

/-- The syntax of a gitconfig: names are ASCII, keys have no dot, a section's name has one only
before a subsection, and what git prints between NUL bytes and before a newline has none. -/
structure Section.Valid (sec : Section) : Prop where
  origin : 0 ∉ sec.origin
  name : ∀ b ∈ sec.name, isNameByte b
  dot : sec.subsection = none → 0x2e ∉ sec.name
  subsection : ∀ sub ∈ sec.subsection, 0 ∉ sub ∧ 0x0a ∉ sub
  keys : ∀ key ∈ sec.keys, ∀ b ∈ key.1, isNameByte b ∧ b ≠ 0x2e
  values : ∀ key ∈ sec.keys, ∀ value ∈ key.2, 0 ∉ value

instance : DecidablePred Section.Valid := fun sec =>
  decidable_of_iff (0 ∉ sec.origin ∧ sec.name.all isNameByte ∧
      (sec.subsection = none → 0x2e ∉ sec.name) ∧ (∀ sub ∈ sec.subsection, 0 ∉ sub ∧ 0x0a ∉ sub) ∧
      (∀ key ∈ sec.keys, key.1.all fun b => isNameByte b && b != 0x2e) ∧
      ∀ key ∈ sec.keys, ∀ value ∈ key.2, 0 ∉ value) <| by
    simp only [List.all_eq_true, Bool.and_eq_true, bne_iff_ne]
    exact ⟨fun ⟨a, b, c, d, e, f⟩ => ⟨a, b, c, d, e, f⟩, fun ⟨a, b, c, d, e, f⟩ =>
      ⟨a, b, c, d, e, f⟩⟩

/-- The values of a section's keys of a name, in order. -/
def Section.keyValues (sec : Section) (name : Bytes) : List (Option Bytes) :=
  sec.keys.filterMap fun (key, value) => if eqIgnoreAsciiCase key name then some value else none

/-- The values of the keys of a name in the sections that satisfy `p`, in file order. -/
def valuesIn (p : Section → Prop) [DecidablePred p] (file : List Section) (name : Bytes) :
    List (Option Bytes) :=
  file.flatMap fun sec => if p sec then sec.keyValues name else []

/-- The section is `[scap]`. -/
def Section.IsScap (sec : Section) : Prop := sec.IsPlain (ascii "scap".toList)

instance (sec : Section) : Decidable sec.IsScap :=
  inferInstanceAs (Decidable (sec.IsPlain (ascii "scap".toList)))

/-- The section is `[scap "<sub>"]`. -/
def Section.IsScoped (sec : Section) : Prop :=
  eqIgnoreAsciiCase sec.name (ascii "scap".toList) ∧ sec.subsection ≠ none

instance (sec : Section) : Decidable sec.IsScoped := inferInstanceAs (Decidable (_ ∧ _))

/-- The section's name goes on after `scap.`. -/
def Section.IsDotted (sec : Section) : Prop := ascii "scap.".toList <+: lower sec.name

instance (sec : Section) : Decidable sec.IsDotted := inferInstanceAs (Decidable (_ <+: _))

/-- The section's subsection is not UTF-8. -/
def Section.IsGarbled (sec : Section) : Prop :=
  sec.subsection.any fun sub => (fromUtf8 sub).isNone

instance (sec : Section) : Decidable sec.IsGarbled := inferInstanceAs (Decidable (_ = true))

/-! ## ASCII -/

/-- The text of an ASCII byte string. -/
def text (b : Bytes) : Str := b.map fun x => Char.ofNat x.toNat

/-- A byte of a name is ASCII. -/
lemma lt_of_isNameByte {b : UInt8} (h : isNameByte b) : b < 0x80 := by
  unfold isNameByte at h
  grind

/-- An ASCII byte in lower case is ASCII. -/
lemma lowerByte_lt {b : UInt8} (h : b < 0x80) : lowerByte b < 0x80 := by
  unfold lowerByte
  grind

/-- An ASCII character is encoded as one byte. -/
lemma utf8EncodeChar_ofNat : ∀ n < 128, String.utf8EncodeChar (Char.ofNat n) = [UInt8.ofNat n] := by
  decide +kernel

/-- The text of ASCII bytes is encoded as these bytes. -/
lemma toBytes_text {b : Bytes} (h : ∀ x ∈ b, x < 0x80) : toBytes (text b) = b := by
  induction b with
  | nil => rfl
  | cons x b ih =>
    obtain ⟨hx, hb⟩ := List.forall_mem_cons.mp h
    have hbyte : String.utf8EncodeChar (Char.ofNat x.toNat) = [x] := by
      rw [utf8EncodeChar_ofNat _ (UInt8.lt_iff_toNat_lt.mp hx), UInt8.ofNat_toNat]
    show String.utf8EncodeChar (Char.ofNat x.toNat) ++ toBytes (text b) = x :: b
    rw [hbyte, ih hb, List.singleton_append]

/-- The text of ASCII bytes is ASCII. -/
lemma text_lt {b : Bytes} (h : ∀ x ∈ b, x < 0x80) : ∀ c ∈ text b, c.toNat < 0x80 := by
  intro c hc
  obtain ⟨x, hx, rfl⟩ := List.mem_map.mp hc
  have hlt : x.toNat < 128 := UInt8.lt_iff_toNat_lt.mp (h x hx)
  have hofNat : ∀ n < 128, (Char.ofNat n).toNat < 0x80 := by decide +kernel
  exact hofNat _ hlt

/-- ASCII text and its bytes. -/
lemma text_eq_iff {b : Bytes} (hb : ∀ x ∈ b, x < 0x80) {s : Str} (hs : toBytes s = ascii s) :
    text b = s ↔ b = ascii s := by
  constructor
  · rintro rfl
    rw [← hs, toBytes_text hb]
  · rintro rfl
    have := toBytes_text hb
    rw [← hs] at this ⊢
    exact Option.some.inj ((fromUtf8_eq_some_iff.mpr this).symm.trans (fromUtf8_toBytes s))

/-- A byte of a name in lower case is some byte of the name in lower case. -/
lemma mem_lower {s : Bytes} {x : UInt8} (h : x ∈ lower s) : ∃ b ∈ s, x = lowerByte b := by
  obtain ⟨b, hb, rfl⟩ := List.mem_map.mp h
  exact ⟨b, hb, rfl⟩

namespace Section

variable {sec : Section}

/-- A section's name in lower case is ASCII. -/
lemma Valid.name_lt (h : sec.Valid) : ∀ x ∈ lower sec.name, x < 0x80 := by
  intro x hx
  obtain ⟨b, hb, rfl⟩ := mem_lower hx
  exact lowerByte_lt (lt_of_isNameByte (h.name b hb))

/-- A key in lower case is ASCII and has no dot. -/
lemma Valid.key_lt (h : sec.Valid) {key : Bytes × Option Bytes} (hkey : key ∈ sec.keys) :
    ∀ x ∈ lower key.1, x < 0x80 ∧ x ≠ 0x2e := by
  intro x hx
  obtain ⟨b, hb, rfl⟩ := mem_lower hx
  obtain ⟨hname, hdot⟩ := h.keys key hkey b hb
  refine ⟨lowerByte_lt (lt_of_isNameByte hname), ?_⟩
  unfold lowerByte
  grind

/-- The text of a key has no dot. -/
lemma Valid.dot_not_mem (h : sec.Valid) {key : Bytes × Option Bytes} (hkey : key ∈ sec.keys) :
    '.' ∉ text (lower key.1) := by
  intro hmem
  obtain ⟨x, hx, hdot⟩ := List.mem_map.mp hmem
  obtain ⟨hlt, hne⟩ := h.key_lt hkey x hx
  have hofNat : ∀ n < 128, Char.ofNat n = '.' → n = 0x2e := by decide +kernel
  exact hne (UInt8.toNat_inj.mp (hofNat _ (UInt8.lt_iff_toNat_lt.mp hlt) hdot))

/-! ## The keys of a listing -/

/-- The text of a key's full name, if it is UTF-8. -/
lemma Valid.fromUtf8_fullKey (h : sec.Valid) {key : Bytes × Option Bytes} (hkey : key ∈ sec.keys) :
    fromUtf8 (sec.fullKey key.1) =
      match sec.subsection with
      | none => some (text (lower sec.name) ++ '.' :: text (lower key.1))
      | some sub => (fromUtf8 sub).map fun sub =>
          text (lower sec.name) ++ '.' :: (sub ++ '.' :: text (lower key.1)) := by
  have hname := toBytes_text h.name_lt
  have hkeyLt : ∀ x ∈ lower key.1, x < 0x80 := fun x hx => (h.key_lt hkey x hx).1
  have hkeyBytes := toBytes_text hkeyLt
  have hdot : ∀ s : Str, toBytes ('.' :: s) = 0x2e :: toBytes s := fun s => rfl
  unfold fullKey
  cases sec.subsection with
  | none =>
    rw [fromUtf8_eq_some_iff, toBytes_append, hdot, hname, hkeyBytes]
  | some sub =>
    have hfront : lower sec.name ++ 0x2e :: (sub ++ 0x2e :: lower key.1) =
        toBytes (text (lower sec.name) ++ ['.']) ++
          (sub ++ toBytes ('.' :: text (lower key.1))) := by
      rw [toBytes_append, hdot, hname, hdot, hkeyBytes]
      simp
    have hlt : ∀ c ∈ '.' :: text (lower key.1), c.toNat < 0x80 :=
      List.forall_mem_cons.mpr ⟨by decide, text_lt hkeyLt⟩
    show fromUtf8 (lower sec.name ++ 0x2e :: (sub ++ 0x2e :: lower key.1)) = _
    rw [hfront, fromUtf8_append_left, fromUtf8_append_right hlt, Option.map_map]
    simp [Function.comp_def]

end Section

/-- What a name in the listing says: a plain key, a key of a subsection, or nothing of ours. -/
inductive Kind where
  | plain (name : Str)
  | nested (name : Str)
  | other
deriving DecidableEq

/-- How `from_listing` takes a name. -/
def kind (key : Str) : Kind :=
  match stripStart "scap.".toList key with
  | none => .other
  | some rest =>
    match splitLast '.' rest with
    | none => .plain rest
    | some (_, name) => .nested name

/-- A prefix of a name followed by a dot is a prefix of the name, or the name and the dot. -/
lemma prefix_append_dot {start : Str} (hstart : '.' ∉ start) (name rest : Str) :
    start ++ ['.'] <+: name ++ '.' :: rest ↔ name = start ∨ start ++ ['.'] <+: name := by
  induction name generalizing start with
  | nil =>
    cases start with
    | nil => simp
    | cons c start =>
      have hc : c ≠ '.' := fun heq => hstart (by simp [heq])
      simp [hc]
  | cons d name ih =>
    cases start with
    | nil =>
      by_cases hd : d = '.'
      · simp [hd]
      · simp [Ne.symm hd]
    | cons c start =>
      have hrest : '.' ∉ start := fun hmem => hstart (List.mem_cons_of_mem _ hmem)
      have := ih hrest
      simp only [List.cons_append, List.cons_prefix_cons, this, List.cons.injEq]
      constructor
      · rintro ⟨rfl, h | h⟩
        · exact .inl ⟨rfl, h⟩
        · exact .inr ⟨rfl, h⟩
      · rintro (⟨rfl, h⟩ | ⟨rfl, h⟩)
        · exact ⟨rfl, .inl h⟩
        · exact ⟨rfl, .inr h⟩

/-- What follows `scap.` is split at its last dot, if it has one. -/
lemma kind_of_stripStart {key rest : Str} (h : stripStart "scap.".toList key = some rest) :
    kind key = match splitLast '.' rest with
      | none => .plain rest
      | some (_, name) => .nested name := by
  unfold kind
  rw [h]

/-- A name of the section `scap`, of a section whose name goes on after `scap.`, or of another. -/
lemma kind_append (name rest : Str) :
    kind (name ++ '.' :: rest) =
      if name = "scap".toList then
        match splitLast '.' rest with
        | none => .plain rest
        | some (_, name) => .nested name
      else if "scap.".toList <+: name then
        match splitLast '.' rest with
        | none => .nested rest
        | some (_, name) => .nested name
      else .other := by
  have hscapDot : '.' ∉ "scap".toList := by decide
  have hiff := prefix_append_dot hscapDot name rest
  have hscap : "scap".toList ++ ['.'] = "scap.".toList := rfl
  rw [hscap] at hiff
  split_ifs with heq hpre
  · exact kind_of_stripStart (by rw [heq]; exact stripStart_append ..)
  · obtain ⟨name, rfl⟩ := hpre
    have hstrip : stripStart "scap.".toList ("scap.".toList ++ name ++ '.' :: rest) =
        some (name ++ '.' :: rest) := by
      rw [List.append_assoc]
      exact stripStart_append ..
    rw [kind_of_stripStart hstrip]
    by_cases hdot : '.' ∈ rest
    · obtain ⟨before, key, rfl, hkey⟩ :=
          (eq_last_or_append '.' rest).resolve_left (not_not.mpr hdot)
      have hassoc : name ++ '.' :: (before ++ '.' :: key) =
          (name ++ '.' :: before) ++ '.' :: key := by
        simp
      rw [splitLast_append hkey, hassoc, splitLast_append hkey]
    · rw [splitLast_append hdot, splitLast_of_not_mem hdot]
  · have hnone : stripStart "scap.".toList (name ++ '.' :: rest) = none :=
      if_neg fun h => (hiff.mp h).elim heq hpre
    unfold kind
    rw [hnone]

namespace Section

variable {sec : Section}

/-- How `from_listing` takes the keys of a section, if it does not drop them. -/
def keyKind (sec : Section) (key : Bytes) : Option Kind := (fromUtf8 (sec.fullKey key)).map kind

/-- A plain section's keys are plain, those of a section with a subsection or a dotted name are
nested, and a section whose subsection is not UTF-8 is dropped. -/
lemma Valid.keyKind_eq (h : sec.Valid) {key : Bytes × Option Bytes} (hkey : key ∈ sec.keys) :
    sec.keyKind key.1 =
      if sec.IsGarbled then none
      else if sec.IsScap then some (.plain (text (lower key.1)))
      else if sec.IsScoped ∨ sec.IsDotted then some (.nested (text (lower key.1)))
      else some .other := by
  have hscap : text (lower sec.name) = "scap".toList ↔
      eqIgnoreAsciiCase sec.name (ascii "scap".toList) :=
    text_eq_iff h.name_lt rfl
  have hdotted : "scap.".toList <+: text (lower sec.name) ↔ sec.IsDotted := by
    constructor
    · rintro ⟨rest, hrest⟩
      have := congrArg toBytes hrest
      rw [toBytes_append, toBytes_text h.name_lt] at this
      exact ⟨_, this⟩
    · rintro ⟨rest, hrest⟩
      rw [← hrest]
      exact ⟨text rest, rfl⟩
  have hdot := h.dot_not_mem hkey
  unfold keyKind
  rw [h.fromUtf8_fullKey hkey]
  cases hsub : sec.subsection with
  | none =>
    have hgarbled : ¬sec.IsGarbled := by simp [IsGarbled, hsub]
    have hplain : sec.IsScap ↔
        eqIgnoreAsciiCase sec.name (ascii "scap".toList) := and_iff_left hsub
    have hscoped : ¬sec.IsScoped := fun h => h.2 hsub
    simp only [Option.map_some, kind_append, splitLast_of_not_mem hdot, hscap, hdotted, hgarbled,
      hplain, hscoped, if_false, false_or]
    split_ifs <;> rfl
  | some sub =>
    have hplain : ¬sec.IsScap := fun h => nomatch h.2.symm.trans hsub
    have hscoped : sec.IsScoped ↔ eqIgnoreAsciiCase sec.name (ascii "scap".toList) :=
      and_iff_left (by simp [hsub])
    cases hutf8 : fromUtf8 sub with
    | none =>
      have hgarbled : sec.IsGarbled := by simp [IsGarbled, hsub, hutf8]
      simp only [hutf8, Option.map_none, if_pos hgarbled]
    | some s =>
      have hgarbled : ¬sec.IsGarbled := by simp [IsGarbled, hsub, hutf8]
      simp only [hutf8, Option.map_some, kind_append, splitLast_append hdot, hscap, hdotted,
        hgarbled, hplain, hscoped, if_false]
      by_cases hname : eqIgnoreAsciiCase sec.name (ascii "scap".toList)
      · rw [if_pos hname, if_pos (.inl hname)]
      · rw [if_neg hname]
        by_cases hdotted : sec.IsDotted
        · rw [if_pos hdotted, if_pos (.inr hdotted)]
        · rw [if_neg hdotted, if_neg (not_or.mpr ⟨hname, hdotted⟩)]

/-- A key's full name has no NUL and no newline. -/
lemma Valid.fullKey_clean (h : sec.Valid) {key : Bytes × Option Bytes} (hkey : key ∈ sec.keys) :
    0 ∉ sec.fullKey key.1 ∧ 0x0a ∉ sec.fullKey key.1 := by
  have hbyte : ∀ b, isNameByte b → lowerByte b ≠ 0 ∧ lowerByte b ≠ 0x0a := by
    intro b hb
    unfold isNameByte at hb
    unfold lowerByte
    grind
  have hname : ∀ x ∈ lower sec.name, x ≠ 0 ∧ x ≠ 0x0a := by
    intro x hx
    obtain ⟨b, hb, rfl⟩ := mem_lower hx
    exact hbyte b (h.name b hb)
  have hlower : ∀ x ∈ lower key.1, x ≠ 0 ∧ x ≠ 0x0a := by
    intro x hx
    obtain ⟨b, hb, rfl⟩ := mem_lower hx
    exact hbyte b (h.keys key hkey b hb).1
  have hall : ∀ x ∈ sec.fullKey key.1, x ≠ 0 ∧ x ≠ 0x0a := by
    unfold fullKey
    cases hsub : sec.subsection with
    | none =>
      intro x hx
      simp only [List.mem_append, List.mem_cons] at hx
      rcases hx with hx | rfl | hx
      · exact hname x hx
      · decide
      · exact hlower x hx
    | some sub =>
      obtain ⟨hzero, hnewline⟩ := h.subsection sub hsub
      have hsubAll : ∀ x ∈ sub, x ≠ 0 ∧ x ≠ 0x0a := fun x hx =>
        ⟨fun heq => hzero (heq ▸ hx), fun heq => hnewline (heq ▸ hx)⟩
      intro x hx
      simp only [List.mem_append, List.mem_cons] at hx
      rcases hx with hx | rfl | hx | rfl | hx
      · exact hname x hx
      · decide
      · exact hsubAll x hx
      · decide
      · exact hlower x hx
  exact ⟨fun hmem => (hall 0 hmem).1 rfl, fun hmem => (hall 0x0a hmem).2 rfl⟩

/-- A record is read back. -/
lemma Valid.parseRecord_record (h : sec.Valid) {key : Bytes × Option Bytes}
    (hkey : key ∈ sec.keys) :
    parseRecord (sec.record key.1 key.2) =
      (fromUtf8 (sec.fullKey key.1)).map fun name => (name, key.2) := by
  have hne : sec.fullKey key.1 ≠ [] := by
    unfold fullKey
    cases sec.subsection <;> simp
  obtain ⟨-, hnewline⟩ := h.fullKey_clean hkey
  obtain ⟨key, value⟩ := key
  unfold parseRecord record
  cases value with
  | none => simp only [if_neg hne, splitFirst_of_not_mem hnewline]
  | some value =>
    rw [if_neg (by simp)]
    simp only [splitFirst_append hnewline]

/-- A record has no NUL byte. -/
lemma Valid.record_clean (h : sec.Valid) {key : Bytes × Option Bytes} (hkey : key ∈ sec.keys) :
    0 ∉ sec.record key.1 key.2 := by
  obtain ⟨hzero, -⟩ := h.fullKey_clean hkey
  unfold record
  cases hvalue : key.2 with
  | none => exact hzero
  | some value =>
    have hvalueZero := h.values key hkey value hvalue
    simp [hzero, hvalueZero]

end Section

/-- The records of what git prints. -/
lemma records_splitOn {lines : List (Bytes × Bytes)} (h : ∀ line ∈ lines, 0 ∉ line.1 ∧ 0 ∉ line.2) :
    records ((lines.flatMap fun line => line.1 ++ 0 :: (line.2 ++ [0])).splitOn 0) =
      lines.map Prod.snd := by
  induction lines with
  | nil => rfl
  | cons line lines ih =>
    obtain ⟨⟨horigin, hrecord⟩, hlines⟩ := List.forall_mem_cons.mp h
    have hassoc : ((line :: lines).flatMap fun line => line.1 ++ 0 :: (line.2 ++ [0])) =
        line.1 ++ 0 :: (line.2 ++ 0 ::
          lines.flatMap fun line => line.1 ++ 0 :: (line.2 ++ [0])) := by
      simp
    rw [hassoc, List.splitOn_append_cons_self, List.splitOn_append_cons_self,
      List.splitOn_eq_singleton horigin, List.splitOn_eq_singleton hrecord]
    exact congrArg (line.2 :: ·) (ih hlines)

/-- What `entries` makes of a listing. -/
lemma entries_listing {file : List Section} (h : ∀ sec ∈ file, sec.Valid) :
    entries (listing file) = file.flatMap fun sec => sec.keys.filterMap fun key =>
      (fromUtf8 (sec.fullKey key.1)).map fun name => (name, key.2) := by
  have hlines : listing file = (file.flatMap fun sec => sec.keys.map fun key =>
      (sec.origin, sec.record key.1 key.2)).flatMap fun line => line.1 ++ 0 :: (line.2 ++ [0]) := by
    unfold listing
    simp [List.flatMap_assoc, List.flatMap_map]
  unfold entries
  rw [hlines, records_splitOn, List.map_flatMap, List.filterMap_flatMap]
  · apply List.flatMap_congr
    intro sec hsec
    rw [List.map_map, List.filterMap_map]
    apply List.filterMap_congr
    exact fun key hkey => (h sec hsec).parseRecord_record hkey
  · intro line hline
    obtain ⟨sec, hsec, hline⟩ := List.mem_flatMap.mp hline
    obtain ⟨key, hkey, rfl⟩ := List.mem_map.mp hline
    exact ⟨(h sec hsec).origin, (h sec hsec).record_clean hkey⟩

/-! ## What `from_listing` collects -/

/-- What a key is collected into. -/
inductive Slot where
  | root | user | completeUser | listExclude | listCache | urlRoot
deriving DecidableEq

/-- The slot of a name, if there is one. -/
def slotOf : Kind → Option Slot
  | .plain name =>
    if name = "root".toList then some .root
    else if name = "user".toList then some .user
    else if name = "completeuser".toList then some .completeUser
    else if name = "listexclude".toList then some .listExclude
    else if name = "listcache".toList then some .listCache
    else none
  | .nested name => if name = "root".toList then some .urlRoot else none
  | .other => none

/-- The keys in a listing that are collected. -/
def slots (file : List Section) : List (Slot × Option Bytes) :=
  file.flatMap fun sec => sec.keys.filterMap fun key =>
    ((sec.keyKind key.1).bind slotOf).map fun slot => (slot, key.2)

/-- The values of one slot. -/
def ofSlot (entries : List (Slot × Option Bytes)) (slot : Slot) : List (Option Bytes) :=
  entries.filterMap fun entry => if entry.1 = slot then some entry.2 else none

section

variable (interpolate : Env → Bytes → Option PathBuf) (lossy : Bytes → Str) (env : Env)

/-- One value is collected. -/
def addSlot (c : Collected) (entry : Slot × Option Bytes) : Collected :=
  match entry with
  | (.root, value) =>
    { c with roots := c.roots ++ (value.bind (interpolateValue interpolate lossy env)).toList }
  | (.user, value) => { c with user := some ((value.map fun v => trim (lossy v)).getD []) }
  | (.completeUser, value) => { c with completeUser := gitBoolean value }
  | (.listExclude, value) =>
    { c with listExclude := c.listExclude ++ (value.map lossy).toList }
  | (.listCache, value) => { c with listCache := gitBoolean value }
  | (.urlRoot, value) =>
    { c with
      urlScopedRoots :=
        c.urlScopedRoots ++ (value.bind (interpolateValue interpolate lossy env)).toList }

/-- An entry is added to the slot its key names. -/
lemma addEntry_eq (c : Collected) (entry : Str × Option Bytes) :
    addEntry interpolate lossy env c entry =
      match slotOf (kind entry.1) with
      | some slot => addSlot interpolate lossy env c (slot, entry.2)
      | none => c := by
  obtain ⟨key, value⟩ := entry
  unfold addEntry kind
  dsimp only
  cases stripStart "scap.".toList key with
  | none => rfl
  | some rest =>
    dsimp only
    cases splitLast '.' rest with
    | none =>
      dsimp only [slotOf]
      split_ifs <;> rfl
    | some groups =>
      dsimp only [slotOf]
      split_ifs <;> rfl

/-- `from_listing` collects the values of the slots. -/
lemma foldl_addEntry {file : List Section} (h : ∀ sec ∈ file, sec.Valid) (c : Collected) :
    (entries (listing file)).foldl (addEntry interpolate lossy env) c =
      (slots file).foldl (addSlot interpolate lossy env) c := by
  have hslots : slots file = (entries (listing file)).filterMap fun entry =>
      (slotOf (kind entry.1)).map fun slot => (slot, entry.2) := by
    rw [entries_listing h, List.filterMap_flatMap]
    unfold slots Section.keyKind
    simp only [List.filterMap_filterMap, Option.bind_map, Option.map_bind, Function.comp_def]
  rw [hslots]
  generalize entries (listing file) = es
  induction es generalizing c with
  | nil => rfl
  | cons entry es ih =>
    rw [List.foldl_cons, ih, addEntry_eq, List.filterMap_cons]
    cases slotOf (kind entry.1) <;> rfl

variable {interpolate lossy env}

/-- No entries are in no slot. -/
@[simp] lemma ofSlot_nil (slot : Slot) : ofSlot [] slot = [] := rfl

/-- The first entry comes first in its own slot. -/
@[simp] lemma ofSlot_cons (entry : Slot × Option Bytes) (es : List (Slot × Option Bytes))
    (slot : Slot) :
    ofSlot (entry :: es) slot = (if entry.1 = slot then [entry.2] else []) ++ ofSlot es slot := by
  unfold ofSlot
  rw [List.filterMap_cons]
  split_ifs <;> rfl

/-- A first element that gives a value gives the first value. -/
lemma filterMap_cons_toList {α β : Type} (f : α → Option β) (x : α) (l : List α) :
    (x :: l).filterMap f = (f x).toList ++ l.filterMap f := by
  rw [List.filterMap_cons]
  cases f x <;> rfl

/-- What is collected, slot by slot. -/
lemma foldl_addSlot (es : List (Slot × Option Bytes)) (c : Collected) :
    es.foldl (addSlot interpolate lossy env) c =
      { roots := c.roots ++
          (ofSlot es .root).filterMap (·.bind (interpolateValue interpolate lossy env))
        urlScopedRoots := c.urlScopedRoots ++
          (ofSlot es .urlRoot).filterMap (·.bind (interpolateValue interpolate lossy env))
        user := ((ofSlot es .user).getLast?.map fun value =>
          (value.map fun v => trim (lossy v)).getD []).or c.user
        completeUser := ((ofSlot es .completeUser).getLast?.map gitBoolean).getD c.completeUser
        listExclude := c.listExclude ++ (ofSlot es .listExclude).filterMap (·.map lossy)
        listCache := ((ofSlot es .listCache).getLast?.map gitBoolean).getD c.listCache } := by
  induction es generalizing c with
  | nil => simp
  | cons entry es ih =>
    rw [List.foldl_cons, ih]
    obtain ⟨slot, value⟩ := entry
    cases slot <;> simp [addSlot, List.getLast?_cons, filterMap_cons_toList]

end

/-! ## The slots of a file -/

/-- The name a slot has in the in-process backend. -/
def Slot.name : Slot → Bytes
  | .root | .urlRoot => ascii "root".toList
  | .user => ascii "user".toList
  | .completeUser => ascii "completeUser".toList
  | .listExclude => ascii "listExclude".toList
  | .listCache => ascii "listCache".toList

/-- The name a slot has in a listing. -/
def Slot.key : Slot → Str
  | .root | .urlRoot => "root".toList
  | .user => "user".toList
  | .completeUser => "completeuser".toList
  | .listExclude => "listexclude".toList
  | .listCache => "listcache".toList

/-- The sections the reader of the listing takes a slot's values from. -/
def Slot.Holds (slot : Slot) (sec : Section) : Prop :=
  if slot = .urlRoot then ¬sec.IsGarbled ∧ (sec.IsScoped ∨ sec.IsDotted)
  else sec.IsScap

instance (slot : Slot) : DecidablePred slot.Holds := fun _ =>
  inferInstanceAs (Decidable (ite ..))

namespace Section

variable {sec : Section}

/-- A plain section has no subsection that could be garbled. -/
lemma IsScap.not_isGarbled (h : sec.IsScap) : ¬sec.IsGarbled := by
  simp [IsGarbled, h.2]

/-- A section whose name goes on after `scap.` is no `scap` section. -/
lemma IsDotted.not_scap (h : sec.IsDotted) : ¬eqIgnoreAsciiCase sec.name (ascii "scap".toList) := by
  intro heq
  have hlength := h.length_le
  rw [show lower sec.name = lower (ascii "scap".toList) from heq] at hlength
  exact absurd hlength (by decide)

/-- Names are compared alike by both backends. -/
lemma Valid.text_eq_key_iff (h : sec.Valid) {key : Bytes × Option Bytes} (hkey : key ∈ sec.keys)
    (slot : Slot) : text (lower key.1) = slot.key ↔ eqIgnoreAsciiCase key.1 slot.name := by
  have hbytes : toBytes slot.key = ascii slot.key := by cases slot <;> rfl
  have hlower : lower slot.name = ascii slot.key := by cases slot <;> rfl
  rw [text_eq_iff (fun x hx => (h.key_lt hkey x hx).1) hbytes, ← hlower]
  rfl

end Section

/-- The slots of plain keys are all but that of url-scoped roots. -/
lemma slotOf_plain (s : Str) (slot : Slot) :
    slotOf (.plain s) = some slot ↔ slot ≠ .urlRoot ∧ s = slot.key := by
  constructor
  · intro h
    dsimp only [slotOf] at h
    split_ifs at h <;> cases h <;> exact ⟨by decide, by assumption⟩
  · rintro ⟨hne, rfl⟩
    cases slot with
    | urlRoot => exact absurd rfl hne
    | _ => rfl

/-- The slot of a key in a subsection is that of url-scoped roots. -/
lemma slotOf_nested (s : Str) (slot : Slot) :
    slotOf (.nested s) = some slot ↔ slot = .urlRoot ∧ s = slot.key := by
  constructor
  · intro h
    dsimp only [slotOf] at h
    split_ifs at h with hs
    cases h
    exact ⟨rfl, hs⟩
  · rintro ⟨rfl, rfl⟩
    rfl

namespace Section

variable {sec : Section}

/-- Which keys a slot takes. -/
lemma Valid.slotOf_keyKind (h : sec.Valid) {key : Bytes × Option Bytes} (hkey : key ∈ sec.keys)
    (slot : Slot) :
    (sec.keyKind key.1).bind slotOf = some slot ↔
      slot.Holds sec ∧ eqIgnoreAsciiCase key.1 slot.name := by
  rw [h.keyKind_eq hkey, ← h.text_eq_key_iff hkey slot]
  by_cases hgarbled : sec.IsGarbled
  · have hplain : ¬sec.IsScap := fun hplain => hplain.not_isGarbled hgarbled
    simp [Slot.Holds, hgarbled, hplain]
  · rw [if_neg hgarbled]
    by_cases hplain : sec.IsScap
    · have hscoped : ¬sec.IsScoped := fun hscoped => hscoped.2 hplain.2
      have hdotted : ¬sec.IsDotted := fun hdotted => hdotted.not_scap hplain.1
      simp [Slot.Holds, hplain, hscoped, hdotted, slotOf_plain]
    · by_cases hnested : sec.IsScoped ∨ sec.IsDotted
      · simp [Slot.Holds, hgarbled, hplain, hnested, slotOf_nested]
      · have hother : slotOf .other = none := rfl
        simp [Slot.Holds, hplain, hnested, hother]

end Section

/-- The values a slot gets. -/
lemma ofSlot_slots {file : List Section} (h : ∀ sec ∈ file, sec.Valid) (slot : Slot) :
    ofSlot (slots file) slot = valuesIn slot.Holds file slot.name := by
  unfold ofSlot slots valuesIn
  rw [List.filterMap_flatMap]
  apply List.flatMap_congr
  intro sec hsec
  rw [List.filterMap_filterMap]
  have hkeys : ∀ key ∈ sec.keys,
      ((((sec.keyKind key.1).bind slotOf).map fun slot => (slot, key.2)).bind fun entry =>
        if entry.1 = slot then some entry.2 else none) =
      if slot.Holds sec ∧ eqIgnoreAsciiCase key.1 slot.name then some key.2 else none := by
    intro key hkey
    have hiff := (h sec hsec).slotOf_keyKind hkey slot
    cases hslot : (sec.keyKind key.1).bind slotOf with
    | none =>
      rw [hslot] at hiff
      rw [if_neg fun hand => nomatch hiff.mpr hand]
      rfl
    | some found =>
      rw [hslot, Option.some_inj] at hiff
      simp only [Option.map_some, Option.bind_some, hiff]
  rw [List.filterMap_congr hkeys]
  split_ifs with hholds
  · simp only [hholds, true_and]
    rfl
  · simp [hholds]

/-! ## The in-process accessors -/

/-- `File::strings` gives the values of a section's keys that have one. -/
lemma Section.values_eq (sec : Section) (name : Bytes) :
    sec.values name = (sec.keyValues name).filterMap id := by
  unfold values keyValues
  rw [List.filterMap_filterMap]
  apply List.filterMap_congr
  intro key _
  by_cases hkey : eqIgnoreAsciiCase key.1 name <;> simp [hkey]

/-- A section's value is that of its last key of the name. -/
lemma Section.valueImplicit_eq (sec : Section) (name : Bytes) :
    sec.valueImplicit name = (sec.keyValues name).getLast? := rfl

/-- The values with `=` of some sections. -/
lemma filter_flatMap_values (p : Section → Prop) [DecidablePred p] (file : List Section)
    (name : Bytes) :
    ((file.filter fun sec => decide (p sec)).flatMap fun sec => sec.values name) =
      (valuesIn p file name).filterMap id := by
  unfold valuesIn
  induction file with
  | nil => rfl
  | cons sec file ih =>
    by_cases hsec : p sec
    · simp [hsec, ih, sec.values_eq]
    · simp [hsec, ih]

/-- The last key of the name decides. -/
lemma booleanOf_scap (file : List Section) (name : Bytes) :
    booleanOf file (ascii "scap".toList) name =
      (valuesIn Section.IsScap file name).getLast?.map gitBoolean := by
  have hfold : ∀ found : Option Bool,
      file.foldl (fun found sec =>
        if sec.IsScap then
          (sec.valueImplicit name).elim found fun value => some (gitBoolean value)
        else found) found =
      ((valuesIn Section.IsScap file name).getLast?.map gitBoolean).or found := by
    unfold valuesIn
    induction file with
    | nil => exact fun found => rfl
    | cons sec file ih =>
      intro found
      rw [List.foldl_cons, ih, List.flatMap_cons, List.getLast?_append]
      by_cases hscap : sec.IsScap
      · rw [if_pos hscap, if_pos hscap, sec.valueImplicit_eq]
        cases (sec.keyValues name).getLast? <;> simp
      · simp [hscap]
  refine Eq.trans ?_ ((hfold none).trans (Option.or_none ..))
  refine List.foldl_ext _ _ _ fun found sec _ => ?_
  cases sec.valueImplicit name <;> rfl

section

variable (interpolate : Env → Bytes → Option PathBuf) (lossy : Bytes → Str) (env : Env)

/-- The roots that the sections satisfying `p` set, interpolated. -/
def rootsIn (p : Section → Prop) [DecidablePred p] (file : List Section) : List PathBuf :=
  (valuesIn p file (ascii "root".toList)).filterMap
    (·.bind (interpolateValue interpolate lossy env))

/-- The roots that a section sets. -/
def Section.roots (sec : Section) : List PathBuf :=
  (sec.keyValues (ascii "root".toList)).filterMap (·.bind (interpolateValue interpolate lossy env))

/-- What `from_file` collects, as `from_listing` does. -/
lemma collectFile_eq (file : List Section) :
    collectFile interpolate lossy env file =
      { roots := rootsIn interpolate lossy env Section.IsScap file
        urlScopedRoots := rootsIn interpolate lossy env Section.IsScoped file
        user := (string file (ascii "scap".toList) (ascii "user".toList)).map fun v =>
          trim (lossy v)
        completeUser := ((valuesIn Section.IsScap file
          (ascii "completeUser".toList)).getLast?.map gitBoolean).getD false
        listExclude := (valuesIn Section.IsScap file
          (ascii "listExclude".toList)).filterMap (·.map lossy)
        listCache := ((valuesIn Section.IsScap file
          (ascii "listCache".toList)).getLast?.map gitBoolean).getD false } := by
  have hstrings : ∀ name, strings file (ascii "scap".toList) name =
      (valuesIn Section.IsScap file name).filterMap id := fun name =>
    filter_flatMap_values Section.IsScap file name
  have hscoped : urlScopedValues file =
      (valuesIn Section.IsScoped file (ascii "root".toList)).filterMap id :=
    filter_flatMap_values Section.IsScoped file _
  have hfilterMap : ∀ (f : Bytes → Option PathBuf) (l : List (Option Bytes)),
      (l.filterMap id).filterMap f = l.filterMap (·.bind f) := fun f l => by
    rw [List.filterMap_filterMap]
    rfl
  have hmap : ∀ l : List (Option Bytes),
      (l.filterMap id).map lossy = l.filterMap (·.map lossy) := fun l => by
    rw [List.map_filterMap]
    rfl
  unfold collectFile rootsIn
  simp only [hstrings, hscoped, booleanOf_scap, hfilterMap, hmap]

/-- What `from_listing` collects from git's listing of a file. -/
lemma foldl_entries_listing {file : List Section} (h : ∀ sec ∈ file, sec.Valid) :
    (entries (listing file)).foldl (addEntry interpolate lossy env) .empty =
      { roots := rootsIn interpolate lossy env Section.IsScap file
        urlScopedRoots := rootsIn interpolate lossy env
          (fun sec => ¬sec.IsGarbled ∧ (sec.IsScoped ∨ sec.IsDotted)) file
        user := (valuesIn Section.IsScap file (ascii "user".toList)).getLast?.map
          fun value => (value.map fun v => trim (lossy v)).getD []
        completeUser := ((valuesIn Section.IsScap file
          (ascii "completeUser".toList)).getLast?.map gitBoolean).getD false
        listExclude := (valuesIn Section.IsScap file
          (ascii "listExclude".toList)).filterMap (·.map lossy)
        listCache := ((valuesIn Section.IsScap file
          (ascii "listCache".toList)).getLast?.map gitBoolean).getD false } := by
  rw [foldl_addEntry interpolate lossy env h, foldl_addSlot]
  simp only [ofSlot_slots h, Collected.empty, List.nil_append, Option.or_none]
  rfl

/-! ## Agreement -/

/-- Two snapshots with the same settings. -/
structure SameSettings (s t : ConfigSnapshot) : Prop where
  roots : s.roots = t.roots
  urlScopedRoots : s.urlScopedRoots = t.urlScopedRoots
  user : s.user = t.user
  completeUser : s.completeUser = t.completeUser
  listExclude : s.listExclude = t.listExclude
  listCache : s.listCache = t.listCache

/-- The last `scap.user` has a value; or it has none, and neither has the last one of each section
back to one whose last is blank. -/
def UserAgrees (file : List Section) : Prop :=
  (valuesIn Section.IsScap file (ascii "user".toList)).getLast? ≠ some none ∨
    ∃ before sec after, file = before ++ sec :: after ∧ sec.IsScap ∧
      (∃ v, sec.value (ascii "user".toList) = some v ∧ trim (lossy v) = []) ∧
      ∀ later ∈ after, later.IsScap → later.value (ascii "user".toList) = none

/-- The roots of subsections that are not UTF-8. -/
abbrev garbledRoots (file : List Section) : List PathBuf :=
  rootsIn interpolate lossy env (fun sec => sec.IsScoped ∧ sec.IsGarbled) file

/-- The roots of sections whose name goes on after `scap.`. -/
abbrev dottedRoots (file : List Section) : List PathBuf :=
  rootsIn interpolate lossy env (fun sec => sec.IsDotted ∧ ¬sec.IsGarbled) file

/-- No subsection with a root is garbled and no name with a root is dotted. -/
def UrlRootsAgree (file : List Section) : Prop :=
  garbledRoots interpolate lossy env file = [] ∧ dottedRoots interpolate lossy env file = []

/-! ### The user -/

/-- `File::string` answers with a section's `value` if the plain sections after it have none. -/
lemma string_eq_some_iff {file : List Section} {sectionName name v : Bytes} :
    string file sectionName name = some v ↔
      ∃ before sec after, file = before ++ sec :: after ∧ sec.IsPlain sectionName ∧
        sec.value name = some v ∧
        ∀ later ∈ after, later.IsPlain sectionName → later.value name = none := by
  unfold string
  rw [List.findSome?_eq_some_iff]
  constructor
  · rintro ⟨after, sec, before, hfile, hvalue, hnone⟩
    obtain ⟨hplain, hvalue⟩ := Option.ite_none_right_eq_some.mp hvalue
    refine ⟨before.reverse, sec, after.reverse, ?_, hplain, hvalue, fun later hlater hplain => ?_⟩
    · rw [← List.reverse_reverse file, hfile]
      simp
    · rw [← hnone later (List.mem_reverse.mp hlater), if_pos hplain]
  · rintro ⟨before, sec, after, rfl, hplain, hvalue, hnone⟩
    refine ⟨after.reverse, sec, before.reverse, by simp, by rw [if_pos hplain, hvalue], ?_⟩
    intro later hlater
    split_ifs with hplain
    · exact hnone later (List.mem_reverse.mp hlater) hplain
    · rfl

/-- Unless the last key of the name has no value, `File::string` answers with that of the last. -/
lemma string_eq_getLast? {file : List Section} {name : Bytes}
    (h : (valuesIn Section.IsScap file name).getLast? ≠ some none) :
    string file (ascii "scap".toList) name =
      (valuesIn Section.IsScap file name).getLast?.join := by
  induction file using List.reverseRecOn with
  | nil => rfl
  | append_singleton file sec ih =>
    have hstring : string (file ++ [sec]) (ascii "scap".toList) name =
        (if sec.IsScap then sec.value name else none).or
          (string file (ascii "scap".toList) name) := by
      unfold string
      rw [List.reverse_append, List.reverse_singleton, List.findSome?_append,
        List.findSome?_singleton]
      rfl
    have hvalues : (valuesIn Section.IsScap (file ++ [sec]) name).getLast? =
        (if sec.IsScap then sec.keyValues name else []).getLast?.or
          (valuesIn Section.IsScap file name).getLast? := by
      unfold valuesIn
      rw [List.flatMap_append, List.getLast?_append, List.flatMap_singleton]
    rw [hvalues] at h ⊢
    rw [hstring]
    by_cases hscap : sec.IsScap
    · rw [if_pos hscap] at h ⊢
      rw [if_pos hscap, Section.value, Section.valueImplicit_eq]
      rcases hlast : (sec.keyValues name).getLast? with _ | _ | v
      · rw [hlast] at h
        exact ih h
      · rw [hlast] at h
        exact absurd rfl h
      · rfl
    · rw [if_neg hscap] at h ⊢
      rw [if_neg hscap]
      exact ih h

/-- When both backends read the same user. -/
lemma user_eq_iff (file : List Section) :
    (string file (ascii "scap".toList) (ascii "user".toList)).map (fun v => trim (lossy v)) =
        (valuesIn Section.IsScap file (ascii "user".toList)).getLast?.map
          (fun value => (value.map fun v => trim (lossy v)).getD []) ↔
      UserAgrees lossy file := by
  by_cases hlast : (valuesIn Section.IsScap file (ascii "user".toList)).getLast? = some none
  · rw [hlast, Option.map_some, Option.map_none, Option.getD_none, Option.map_eq_some_iff]
    unfold UserAgrees
    simp only [string_eq_some_iff, hlast, ne_eq, not_true_eq_false, false_or]
    constructor
    · rintro ⟨v, ⟨before, sec, after, hfile, hscap, hvalue, hnone⟩, hblank⟩
      exact ⟨before, sec, after, hfile, hscap, ⟨v, hvalue, hblank⟩, hnone⟩
    · rintro ⟨before, sec, after, hfile, hscap, ⟨v, hvalue, hblank⟩, hnone⟩
      exact ⟨v, ⟨before, sec, after, hfile, hscap, hvalue, hnone⟩, hblank⟩
  · refine iff_of_true ?_ (.inl hlast)
    rw [string_eq_getLast? hlast]
    rcases hvalues : (valuesIn Section.IsScap file (ascii "user".toList)).getLast? with _ | _ | v
    · rfl
    · exact absurd hvalues hlast
    · rfl

/-! ### The url-scoped roots -/

variable {interpolate lossy env}

/-- Section by section. -/
lemma rootsIn_eq_flatMap (p : Section → Prop) [DecidablePred p] (file : List Section) :
    rootsIn interpolate lossy env p file =
      file.flatMap fun sec => if p sec then sec.roots interpolate lossy env else [] := by
  unfold rootsIn valuesIn
  rw [List.filterMap_flatMap]
  apply List.flatMap_congr
  intro sec _
  by_cases hsec : p sec
  · rw [if_pos hsec, if_pos hsec]
    rfl
  · rw [if_neg hsec, if_neg hsec]
    rfl

/-- There are no roots exactly if no section has one. -/
lemma rootsIn_eq_nil_iff {p : Section → Prop} [DecidablePred p] {file : List Section} :
    rootsIn interpolate lossy env p file = [] ↔
      ∀ sec ∈ file, p sec → sec.roots interpolate lossy env = [] := by
  rw [rootsIn_eq_flatMap, List.flatMap_eq_nil_iff]
  simp only [ite_eq_right_iff]

/-- Sections that set no root do not count. -/
lemma rootsIn_congr {p q : Section → Prop} [DecidablePred p] [DecidablePred q] {file : List Section}
    (h : ∀ sec ∈ file, sec.roots interpolate lossy env ≠ [] → (p sec ↔ q sec)) :
    rootsIn interpolate lossy env p file = rootsIn interpolate lossy env q file := by
  rw [rootsIn_eq_flatMap, rootsIn_eq_flatMap]
  apply List.flatMap_congr
  intro sec hsec
  by_cases hroots : sec.roots interpolate lossy env = []
  · rw [hroots, ite_self, ite_self]
  · exact if_congr (h sec hsec hroots) rfl rfl

/-- The in-process backend alone sees the garbled roots, the other one alone the dotted ones. -/
lemma count_rootsIn_add (file : List Section) (root : PathBuf) :
    (rootsIn interpolate lossy env Section.IsScoped file).count root +
        (dottedRoots interpolate lossy env file).count root =
      (rootsIn interpolate lossy env
        (fun sec => ¬sec.IsGarbled ∧ (sec.IsScoped ∨ sec.IsDotted)) file).count root +
        (garbledRoots interpolate lossy env file).count root := by
  simp only [garbledRoots, dottedRoots, rootsIn_eq_flatMap]
  induction file with
  | nil => rfl
  | cons sec file ih =>
    simp only [List.flatMap_cons, List.count_append]
    have hsec : (if sec.IsScoped then sec.roots interpolate lossy env else []).count root +
        (if sec.IsDotted ∧ ¬sec.IsGarbled then sec.roots interpolate lossy env else []).count root =
        (if ¬sec.IsGarbled ∧ (sec.IsScoped ∨ sec.IsDotted) then
          sec.roots interpolate lossy env else []).count root +
        (if sec.IsScoped ∧ sec.IsGarbled then
          sec.roots interpolate lossy env else []).count root := by
      by_cases hscoped : sec.IsScoped
      · have hdotted : ¬sec.IsDotted := fun hdotted => hdotted.not_scap hscoped.1
        by_cases hgarbled : sec.IsGarbled <;> simp [hscoped, hdotted, hgarbled]
      · by_cases hgarbled : sec.IsGarbled <;> simp [hscoped, hgarbled]
    omega

/-- Where both backends see the same url-scoped roots, the dotted ones stand in for the garbled
ones. -/
lemma garbledRoots_perm {file : List Section}
    (h : rootsIn interpolate lossy env Section.IsScoped file =
      rootsIn interpolate lossy env
        (fun sec => ¬sec.IsGarbled ∧ (sec.IsScoped ∨ sec.IsDotted)) file) :
    (garbledRoots interpolate lossy env file).Perm (dottedRoots interpolate lossy env file) := by
  rw [List.perm_iff_count]
  intro root
  have hcount := @count_rootsIn_add interpolate lossy env file root
  rw [h] at hcount
  exact (Nat.add_left_cancel hcount).symm

/-- Without garbled and dotted roots both backends see the same url-scoped ones. -/
lemma rootsIn_isScoped_eq {file : List Section} (h : UrlRootsAgree interpolate lossy env file) :
    rootsIn interpolate lossy env Section.IsScoped file =
      rootsIn interpolate lossy env
        (fun sec => ¬sec.IsGarbled ∧ (sec.IsScoped ∨ sec.IsDotted)) file := by
  obtain ⟨hgarbled, hdotted⟩ := h
  have hgarbledAll := rootsIn_eq_nil_iff.mp hgarbled
  have hdottedAll := rootsIn_eq_nil_iff.mp hdotted
  apply rootsIn_congr
  intro sec hsec hroots
  have hnotGarbled : sec.IsScoped → ¬sec.IsGarbled := fun hscoped hgarbled =>
    hroots (hgarbledAll sec hsec ⟨hscoped, hgarbled⟩)
  have hnotDotted : ¬sec.IsGarbled → ¬sec.IsDotted := fun hgarbled hdotted =>
    hroots (hdottedAll sec hsec ⟨hdotted, hgarbled⟩)
  constructor
  · exact fun hscoped => ⟨hnotGarbled hscoped, .inl hscoped⟩
  · exact fun ⟨hgarbled, hor⟩ => hor.resolve_right (hnotDotted hgarbled)

/-! ### All settings -/

/-- Both backends read the same settings from a gitconfig if the user agrees and there are no
garbled and no dotted roots.  Where they do, the user agrees, and the dotted roots are the garbled
ones: one kind alone makes the backends differ. -/
theorem backends_agree {file : List Section} (h : ∀ sec ∈ file, sec.Valid) (reason : Reason) :
    (UserAgrees lossy file → UrlRootsAgree interpolate lossy env file →
        SameSettings (fromFile interpolate lossy (some file) env)
          (fromListing interpolate lossy (listing file) env reason)) ∧
      (SameSettings (fromFile interpolate lossy (some file) env)
          (fromListing interpolate lossy (listing file) env reason) →
        UserAgrees lossy file ∧
          (garbledRoots interpolate lossy env file).Perm
            (dottedRoots interpolate lossy env file)) := by
  have hfile := collectFile_eq interpolate lossy env file
  have hlisting := foldl_entries_listing interpolate lossy env h
  constructor
  · intro huser hurl
    have hname := (user_eq_iff lossy file).mpr huser
    have hroots := rootsIn_isScoped_eq hurl
    constructor <;> simp only [fromFile, fromListing, hfile, hlisting]
    · exact hroots
    · exact hname
  · intro hsame
    have hurl := hsame.urlScopedRoots
    have hname := hsame.user
    simp only [fromFile, fromListing, hfile, hlisting] at hurl hname
    exact ⟨(user_eq_iff lossy file).mp hname, garbledRoots_perm hurl⟩

end

/-- A gitconfig with a plain root and one for a host. -/
def ordinaryConfig : List Section :=
  [{ origin := ascii "file:/home/u/.gitconfig".toList
     name := ascii "scap".toList
     subsection := none
     keys := [(ascii "root".toList, some (ascii "/src".toList)),
       (ascii "user".toList, some (ascii "octocat".toList)), (ascii "completeUser".toList, none)] },
   { origin := ascii "file:/home/u/.gitconfig".toList
     name := ascii "Scap".toList
     subsection := some (ascii "https://example.com".toList)
     keys := [(ascii "root".toList, some (ascii "/work".toList))] }]

/-- A gitconfig with a `scap.user` without `=`. -/
def valuelessUser : List Section :=
  [{ origin := ascii "file:/home/u/.gitconfig".toList
     name := ascii "scap".toList
     subsection := none
     keys := [(ascii "user".toList, none)] }]

/-- An environment that says nothing about `scap`. -/
def bareEnv : Env where
  home := some (ascii "/home/u".toList)
  scapRoot := none
  scapListExclude := none
  scapListCache := none

/-- The backends agree on an ordinary gitconfig. -/
theorem backends_agree_ordinary :
    SameSettings
        (fromFile (fun _ value => some value) (fun v => (fromUtf8 v).getD []) (some ordinaryConfig)
          bareEnv)
        (fromListing (fun _ value => some value) (fun v => (fromUtf8 v).getD [])
          (listing ordinaryConfig) bareEnv .envOverride) :=
  (backends_agree (by decide) _).1 (.inl (by decide)) ⟨by decide, by decide⟩

/-- One backend takes a `scap.user` without `=` for unset, the other for empty. -/
theorem backends_differ :
    (∀ sec ∈ valuelessUser, sec.Valid) ∧
      ¬SameSettings
        (fromFile (fun _ value => some value) (fun v => (fromUtf8 v).getD []) (some valuelessUser)
          bareEnv)
        (fromListing (fun _ value => some value) (fun v => (fromUtf8 v).getD [])
          (listing valuelessUser) bareEnv .envOverride) := by
  refine ⟨by decide, fun hsame => ?_⟩
  exact absurd hsame.user (by decide)

end Config

end Scap
