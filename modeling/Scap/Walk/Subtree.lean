import Mathlib.Data.Multiset.Filter
import Scap.Walk.Strategies

/-!
# What a walk comes upon beneath a path

A walk comes upon no path twice (`nodup_rel_found`), so what it comes upon beneath a path can be
told from what it comes upon elsewhere.  Beneath a directory that it reads, that is what there is to
be come upon from the directory on (`found_beneath_of_reads`); beneath any other directory, it is
what becomes of the directory's entry (`found_beneath_of_not_entered`), if the entry is come to at
all (`found_beneath_of_not_reads`).
-/

namespace Scap

/-- A function that yields at most the value of another one at each element of a list yields a
sublist of its values. -/
lemma flatMap_sublist_map {α β : Type*} {f : α → β} {g : α → List β}
    (h : ∀ a, (g a).Sublist [f a]) (xs : List α) : (xs.flatMap g).Sublist (xs.map f) := by
  induction xs with
  | nil => exact .refl _
  | cons a xs ih =>
    rw [List.flatMap_cons, List.map_cons]
    exact (h a).append ih

namespace Tree

variable {wildmatch : Bytes → Bytes → Bool} {exclude : List Bytes} {t : Tree}
    {spared : Bytes → Bool}

/-! ## Each path once -/

/-- An entry amounts to at most one thing. -/
lemma map_rel_entFound_sublist (rel : Bytes) (x : Bool) (e : Bytes × Bool × Node) :
    ((t.entFound wildmatch exclude spared rel x e).map Finding.rel).Sublist [joinRel rel e.1] := by
  unfold entFound
  split
  · exact .refl _
  · exact .refl _
  · split_ifs <;> exact .refl _
  · exact List.nil_sublist _

/-- What a directory that is read comes upon is the directory itself or an entry that is not
read. -/
lemma rel_of_mem_ownFound {p : List Bytes} (hp : t.Reads wildmatch exclude p) {f : Finding}
    (hf : f ∈ t.ownFound wildmatch exclude spared (render p)) :
    f.rel = render p ∨ ∃ name, ValidPath (p ++ [name]) ∧ f.rel = render (p ++ [name]) ∧
      ¬t.Reads wildmatch exclude (p ++ [name]) := by
  obtain ⟨attr, r, x, entries, hat⟩ := (hp.opened p (List.prefix_refl p)).1
  rw [ownFound_eq hat] at hf
  split_ifs at hf
  · obtain rfl := List.mem_singleton.mp hf
    exact .inl rfl
  · rcases List.mem_cons.mp hf with rfl | hf
    · exact .inl rfl
    · obtain ⟨e, he, hent⟩ := List.mem_flatMap.mp hf
      refine .inr ⟨e.1, Tree.validPath (at?_entry hat he), ?_, fun hreads => ?_⟩
      · rw [rel_of_mem_entFound hent, render_append_singleton]
      · obtain ⟨-, -, hdir, hopens, hkept, hplain⟩ := reads_append_singleton.mp hreads
        rw [render_append_singleton] at hopens hkept
        have hverdict := (verdict_entered_iff hat he).mpr ⟨hdir, hopens, hkept, hplain⟩
        rw [entFound, hverdict] at hent
        exact absurd hent List.not_mem_nil

/-- Two directories that are read come upon one path only if they are the same. -/
lemma eq_of_mem_ownFound {p q : List Bytes} (hp : t.Reads wildmatch exclude p)
    (hq : t.Reads wildmatch exclude q) {f g : Finding}
    (hf : f ∈ t.ownFound wildmatch exclude spared (render p))
    (hg : g ∈ t.ownFound wildmatch exclude spared (render q)) (hrel : f.rel = g.rel) : p = q := by
  rcases rel_of_mem_ownFound hp hf with hself | ⟨name, hvalid, hjoin, hnot⟩ <;>
    rcases rel_of_mem_ownFound hq hg with hself' | ⟨name', hvalid', hjoin', hnot'⟩
  · exact render_injective hp.validPath hq.validPath (hself.symm.trans (hrel.trans hself'))
  · obtain rfl := render_injective hp.validPath hvalid' (hself.symm.trans (hrel.trans hjoin'))
    exact absurd hp hnot'
  · obtain rfl := render_injective hvalid hq.validPath (hjoin.symm.trans (hrel.trans hself'))
    exact absurd hq hnot
  · have hsame := render_injective hvalid hvalid' (hjoin.symm.trans (hrel.trans hjoin'))
    exact (List.append_inj' hsame rfl).1

/-- One directory comes upon no path twice. -/
lemma nodup_ownFound {p : List Bytes} (hp : t.Reads wildmatch exclude p) :
    ((t.ownFound wildmatch exclude spared (render p)).map Finding.rel).Nodup := by
  obtain ⟨attr, r, x, entries, hat⟩ := (hp.opened p (List.prefix_refl p)).1
  rw [ownFound_eq hat]
  split_ifs
  · exact List.nodup_singleton _
  · have hat' : t.root.at? (components (render p)) = some (.dir attr r x entries) := by
      rwa [components_render hp.validPath]
    have hjoined : (entries.map fun e => joinRel (render p) e.1).Nodup := by
      simpa using nodup_joined hat' fun _ => true
    rw [List.map_cons, List.nodup_cons, List.map_flatMap]
    have hsub := flatMap_sublist_map
      (map_rel_entFound_sublist (render p) x : ∀ e,
        ((t.entFound wildmatch exclude spared (render p) x
        e).map Finding.rel).Sublist [joinRel (render p) e.1]) entries
    refine ⟨fun hmem => ?_, hjoined.sublist hsub⟩
    obtain ⟨e, he, heq⟩ := List.mem_map.mp (hsub.subset hmem)
    exact joinRel_ne_render hat he heq

/-- The directories that are read from one on are each read once. -/
lemma nodup_unfolding_entered (wildmatch : Bytes → Bytes → Bool) (exclude : List Bytes) (t : Tree)
    (rel : Bytes) : (unfolding (t.entered wildmatch exclude) [rel]).Nodup := by
  refine (unfolds_unfolding (exists_unfolds_entered wildmatch exclude t) [rel]).nodup t.rank
    (fun rel child h => ?_) (fun rel => ?_) (fun a b c ha hb => ?_) (List.pairwise_singleton ..)
  · obtain ⟨attr, r, x, entries, hat, -, e, he, -, rfl⟩ := mem_entered.mp h
    exact rank_joinRel_lt hat he
  · unfold entered
    split
    · rename_i attr r x entries hat
      split_ifs
      · exact List.nodup_nil
      · exact nodup_joined hat _
    · exact List.nodup_nil
  · obtain ⟨_, _, _, _, hat, -, e, he, -, rfl⟩ := mem_entered.mp ha
    obtain ⟨_, _, _, _, hat', -, e', he', -, heq⟩ := mem_entered.mp hb
    exact (joinRel_injective (t.valid _ _ _ _ _ hat e he) (t.valid _ _ _ _ _ hat' e' he') heq).1

/-- **Each path once.**  From a directory that is read on, no path is come upon twice. -/
theorem nodup_rel_found {s : List Bytes} (hs : t.Reads wildmatch exclude s) :
    ((t.found wildmatch exclude spared [render s]).map Finding.rel).Nodup := by
  have hreads : ∀ rel ∈ unfolding (t.entered wildmatch exclude) [render s], ∃ p,
      t.Reads wildmatch exclude p ∧ rel = render p := by
    intro rel hrel
    have hunfolds := unfolds_unfolding (exists_unfolds_entered wildmatch exclude t) [render s]
    obtain ⟨_, hstart, hreach⟩ := hunfolds.mem_iff.mp hrel
    obtain rfl := List.mem_singleton.mp hstart
    obtain ⟨p, -, hp, rfl⟩ := (reached_from_iff hs).mp hreach
    exact ⟨p, hp, rfl⟩
  rw [found, Multiset.map_coe, Multiset.coe_nodup, List.map_flatMap]
  refine List.nodup_flatMap.mpr ⟨fun rel hrel => ?_, ?_⟩
  · obtain ⟨p, hp, rfl⟩ := hreads rel hrel
    exact nodup_ownFound hp
  · refine (nodup_unfolding_entered wildmatch exclude t (render s)).pairwise_of_forall_ne
      fun rel hrel rel' hrel' hne path hpath hpath' => hne ?_
    obtain ⟨p, hp, rfl⟩ := hreads rel hrel
    obtain ⟨q, hq, rfl⟩ := hreads rel' hrel'
    obtain ⟨f, hf, rfl⟩ := List.mem_map.mp hpath
    obtain ⟨g, hg, hrels⟩ := List.mem_map.mp hpath'
    rw [eq_of_mem_ownFound hp hq hf hg hrels.symm]

/-- A directory that can be opened and is not named `*.git` is a repository to the walk exactly when
it is read and its entries make it one. -/
lemma repo_mem_found_iff_of_opens (hroot : t.opens [] = true) {p : List Bytes} (hdir : t.IsDir p)
    (hopens : t.opens (render p) = true) (hplain : ¬BareName p) :
    Finding.repo (render p) ∈ t.found wildmatch exclude spared [[]] ↔
      t.Reads wildmatch exclude p ∧ t.inside (render p) = true := by
  obtain ⟨attr, r, x, entries, hat⟩ := id hdir
  constructor
  · intro h
    obtain ⟨q, hq, hown⟩ := (mem_found_root hroot).mp h
    rcases rel_of_mem_ownFound hq hown with hself | ⟨name, hvalid, hjoin, hnot⟩
    · obtain rfl := render_injective hdir.validPath hq.validPath hself
      exact ⟨hq, (repo_mem_ownFound_iff hat).mp hown⟩
    · obtain rfl := render_injective hdir.validPath hvalid hjoin
      obtain ⟨attr', r', x', entries', hat'⟩ := (hq.opened q (List.prefix_refl q)).1
      obtain ⟨e, he, rfl, -⟩ := exists_entry hat' hat
      rw [render_append_singleton] at h hopens
      obtain ⟨-, houtside, hemitted | ⟨hentered, -⟩ | ⟨hbarred, -⟩⟩ :=
        (repo_mem_found_iff hroot hat' he).mp h
      · obtain ⟨-, -, ⟨-, hsuffix⟩ | ⟨⟨⟨_, _, hlink⟩, -⟩, -⟩⟩ :=
            (verdict_emitted_iff hat' he).mp hemitted
        · exact absurd (bareName_append_singleton.mpr hsuffix) hplain
        · exact absurd (hat.symm.trans hlink) (by simp)
      · obtain ⟨-, -, hkept, hsuffix⟩ := (verdict_entered_iff hat' he).mp hentered
        rw [← render_append_singleton] at hopens hkept
        exact absurd (reads_append_singleton.mpr ⟨hq, houtside, hdir, hopens, hkept, hsuffix⟩) hnot
      · obtain ⟨-, -, hclosed, -⟩ := (verdict_barred_iff hat' he).mp hbarred
        exact absurd hopens (by simp [hclosed])
  · rintro ⟨hp, hinside⟩
    exact (mem_found_root hroot).mpr ⟨p, hp, (repo_mem_ownFound_iff hat).mpr hinside⟩

/-! ## Beneath a path -/

/-- Whether a path is the path `s` or lies beneath it. -/
def Beneath (s : List Bytes) (path : Bytes) : Prop := s <+: components path

instance (s : List Bytes) (path : Bytes) : Decidable (Beneath s path) :=
  inferInstanceAs (Decidable (s <+: components path))

/-- A path is beneath another if that is a beginning of it. -/
lemma beneath_render_iff {s p : List Bytes} (hp : ValidPath p) :
    Beneath s (render p) ↔ s <+: p := by rw [Beneath, components_render hp]

/-- Beneath a directory that is read, a walk of the root comes upon what there is to be come upon
from that directory on. -/
theorem found_beneath_of_reads {s : List Bytes} (hs : t.Reads wildmatch exclude s) :
    (t.found wildmatch exclude spared [[]]).filter (fun f => Beneath s f.rel) =
      t.found wildmatch exclude spared [render s] := by
  have hopens := (hs.opened [] List.nil_prefix).2
  have hroot : (t.found wildmatch exclude spared [[]]).Nodup :=
    .of_map _ (nodup_rel_found (reads_nil hopens))
  refine ((hroot.filter _).ext (.of_map _ (nodup_rel_found hs))).mpr fun f => ?_
  rw [Multiset.mem_filter, mem_found_root hopens, mem_found_from hs]
  constructor
  · rintro ⟨⟨p, hp, hf⟩, hbeneath⟩
    refine ⟨p, ?_, hp, hf⟩
    rcases rel_of_mem_ownFound hp hf with hrel | ⟨name, hvalid, hrel, hnot⟩ <;>
        rw [hrel] at hbeneath
    · exact (beneath_render_iff hp.validPath).mp hbeneath
    · rcases List.prefix_concat_iff.mp ((beneath_render_iff hvalid).mp hbeneath) with rfl | hsp
      · exact absurd hs hnot
      · exact hsp
  · rintro ⟨p, hsp, hp, hf⟩
    refine ⟨⟨p, hp, hf⟩, ?_⟩
    rcases rel_of_mem_ownFound hp hf with hrel | ⟨name, hvalid, hrel, -⟩ <;> rw [hrel]
    · exact (beneath_render_iff hp.validPath).mpr hsp
    · exact (beneath_render_iff hvalid).mpr (hsp.trans (List.prefix_append ..))

/-- Beneath an entry that is not read, a walk of the root comes upon what the entry amounts to. -/
theorem found_beneath_of_not_entered {p : List Bytes} {attr : Attr} {r x : Bool}
    {entries : List (Bytes × Bool × Node)} {e : Bytes × Bool × Node}
    (hp : t.Reads wildmatch exclude p) (houtside : t.inside (render p) = false)
    (hat : t.root.at? p = some (.dir attr r x entries)) (he : e ∈ entries)
    (hnot : ¬t.Reads wildmatch exclude (p ++ [e.1])) :
    (t.found wildmatch exclude spared [[]]).filter (fun f => Beneath (p ++ [e.1]) f.rel) =
      t.entFound wildmatch exclude spared (render p) x e := by
  have hopens := (hp.opened [] List.nil_prefix).2
  have hvalid : ValidPath (p ++ [e.1]) := Tree.validPath (at?_entry hat he)
  have hroot : (t.found wildmatch exclude spared [[]]).Nodup :=
    .of_map _ (nodup_rel_found (reads_nil hopens))
  have hent : (t.entFound wildmatch exclude spared (render p) x e).Nodup :=
    .of_map Finding.rel ((List.nodup_singleton _).sublist (map_rel_entFound_sublist ..))
  refine ((hroot.filter _).ext (Multiset.coe_nodup.mpr hent)).mpr fun f => ?_
  rw [Multiset.mem_filter, Multiset.mem_coe]
  constructor
  · rintro ⟨hf, hbeneath⟩
    obtain ⟨q, hq, hown⟩ := (mem_found_root hopens).mp hf
    -- What lies strictly beneath the entry would be come upon through it.
    have hrel : f.rel = joinRel (render p) e.1 := by
      rw [← render_append_singleton]
      rcases rel_of_mem_ownFound hq hown with hrel | ⟨name, hvalid', hrel, -⟩ <;>
        rw [hrel] at hbeneath ⊢
      · exact absurd (hq.of_prefix ((beneath_render_iff hq.validPath).mp hbeneath)) hnot
      · rcases List.prefix_concat_iff.mp
            ((beneath_render_iff hvalid').mp hbeneath) with heq | hbelow
        · rw [heq]
        · exact absurd (hq.of_prefix hbelow) hnot
    rcases (mem_found_iff_of_rel hopens hat he hrel).mp hf with ⟨-, -, hf⟩ | ⟨hreads, -⟩
    · exact hf
    · exact absurd hreads hnot
  · intro hf
    have hrel := rel_of_mem_entFound hf
    refine ⟨(mem_found_iff_of_rel hopens hat he hrel).mpr (.inl ⟨hp, houtside, hf⟩), ?_⟩
    rw [hrel, ← render_append_singleton]
    exact (beneath_render_iff hvalid).mpr (List.prefix_refl _)

/-- Beneath an entry of a directory that is not read, a walk of the root comes upon nothing. -/
theorem found_beneath_of_not_reads (hroot : t.opens [] = true) {p : List Bytes} (name : Bytes)
    (hnot : ¬t.Reads wildmatch exclude p) :
    (t.found wildmatch exclude spared [[]]).filter (fun f => Beneath (p ++ [name]) f.rel) = 0 := by
  refine Multiset.filter_eq_nil.mpr fun f hf hbeneath => hnot ?_
  obtain ⟨q, hq, hown⟩ := (mem_found_root hroot).mp hf
  have habove : p <+: p ++ [name] := List.prefix_append ..
  rcases rel_of_mem_ownFound hq hown with hrel | ⟨name', hvalid, hrel, -⟩ <;> rw [hrel] at hbeneath
  · exact hq.of_prefix (habove.trans ((beneath_render_iff hq.validPath).mp hbeneath))
  · rcases List.prefix_concat_iff.mp ((beneath_render_iff hvalid).mp hbeneath) with heq | hbelow
    · obtain rfl := (List.append_inj' heq rfl).1
      exact hq
    · exact hq.of_prefix (habove.trans hbelow)

end Tree

end Scap
