import IncludeScan.Proofs.Grouping.InputOrder
import IncludeScan.Proofs.Path.Components

/-!
# Proofs/Path/Variants — when files of two ids have a path in common

What is stripped off a path and what is put in front of it leave its last component alone; so the
variants of a file end in the file's own name, and files of two ids have none in common.  There is
one exception: a search that strips the **whole** path of a file leaves nothing of it, and the
variant is what the search puts in front, which may be the path of any other file.

* `variants_shared_iff` — files of two ids have a path in common in this way and in no other, and
  where it does not happen the order of the files has no part in who owns a path.
* `variants_shared_swallowed` — two headers for which it happens.
-/

namespace IncludeScan

namespace Path

/-! ## Searches that leave nothing of a path -/

/-- The searches by which a header is found: the package's own and the further ones. -/
def Layout.allSearches (layout : Layout) : List Search :=
  ⟨layout.strip, layout.front⟩ :: layout.searches

/-- **The search swallows the file**: it strips the whole path, and what it puts in front is all
there is. -/
def Search.Swallows (rel : String) (s : Search) (name : String) : Prop :=
  s.front ≠ "" ∧ strippedDirectory rel s = join [rel, name]

instance (rel : String) (s : Search) (name : String) : Decidable (s.Swallows rel name) :=
  inferInstanceAs (Decidable (_ ∧ _))

/-- A search that swallows the one file gives it a path of the other. -/
def Layout.Confuses (layout : Layout) (name other : String) : Prop :=
  ∃ s ∈ layout.allSearches, s.Swallows layout.rel name ∧ join [s.front] ∈ variants layout other

instance (layout : Layout) (name other : String) : Decidable (layout.Confuses name other) :=
  inferInstanceAs (Decidable (∃ s ∈ _, _))

/-! ## The variants of a file -/

variable {layout : Layout} {name path : String}

theorem mem_variants :
    path ∈ variants layout name ↔ path ≠ "" ∧ (path = join [layout.rel, name] ∨ path = name
      ∨ ∃ s ∈ layout.allSearches, path = transform layout.rel s (join [layout.rel, name])) := by
  simp only [variants, Layout.allSearches, List.mem_filter, List.mem_eraseDups, List.mem_append,
    List.mem_cons, List.not_mem_nil, or_false, List.mem_map, bne_iff_ne, exists_eq_or_imp]
  tauto

theorem dropDirectory_self (h : path ≠ "") (hdot : path ≠ ".") : dropDirectory path path = "" := by
  rw [dropDirectory, if_neg (by simp [h, hdot]), if_pos rfl]

/-- **Only the whole path is stripped of its last component.** -/
theorem EndsIn.dropDirectory {dir : String} (h : EndsIn path name) (hne : dir ≠ path) :
    EndsIn (dropDirectory dir path) name := by
  unfold Path.dropDirectory
  split
  · exact h
  · rw [if_neg hne.symm]
    split
    · rename_i hprefix
      obtain ⟨rest, hpath, hdrop⟩ := exists_behind_slash hprefix
      rw [hdrop]
      exact (hpath ▸ h).of_behind
    · exact h

theorem transform_of_strippedDirectory {rel : String} {s : Search} (h : EndsIn path name)
    (hname : IsName name) (hstrip : strippedDirectory rel s = path) :
    transform rel s path = join [s.front] := by
  rw [transform, hstrip, dropDirectory_self (h.ne_empty hname) (h.ne_dot hname),
    join_pair_empty]

/-- **A variant ends in the name of the file**, unless the file is swallowed. -/
theorem endsIn_or_swallows (hname : Plain name) (h : path ∈ variants layout name) :
    EndsIn path (base name)
      ∨ ∃ s ∈ layout.allSearches, s.Swallows layout.rel name ∧ path = join [s.front] := by
  obtain ⟨hends, hbase⟩ := hname.endsIn
  have hfull := endsIn_join hends hbase layout.rel
  obtain ⟨hne, rfl | rfl | ⟨s, hs, rfl⟩⟩ := mem_variants.1 h
  · exact Or.inl hfull
  · exact Or.inl hends
  · by_cases hstrip : strippedDirectory layout.rel s = join [layout.rel, name]
    · have heq := transform_of_strippedDirectory hfull hbase hstrip
      refine Or.inr ⟨s, hs, ⟨fun hfront => hne ?_, hstrip⟩, heq⟩
      rw [heq, hfront]
      rfl
    · exact Or.inl (endsIn_join (hfull.dropDirectory hstrip) hbase s.front)

theorem mem_variants_of_swallows {s : Search} (hname : Plain name) (hs : s ∈ layout.allSearches)
    (h : s.Swallows layout.rel name) (hne : join [s.front] ≠ "") :
    join [s.front] ∈ variants layout name := by
  obtain ⟨hends, hbase⟩ := hname.endsIn
  have heq := transform_of_strippedDirectory (endsIn_join hends hbase layout.rel) hbase h.2
  exact mem_variants.2 ⟨hne, Or.inr (Or.inr ⟨s, hs, heq.symm⟩)⟩

/-- A path that files of two ids have is what a search has put in the place of one of them. -/
theorem exists_mem_variants_iff {other : String} (hname : Plain name) (hother : Plain other)
    (hid : stem name ≠ stem other) :
    (∃ path ∈ variants layout name, path ∈ variants layout other)
      ↔ layout.Confuses name other ∨ layout.Confuses other name := by
  constructor
  · rintro ⟨path, hpath, hpath'⟩
    rcases endsIn_or_swallows hname hpath with hends | ⟨s, hs, hswallows, rfl⟩
    · rcases endsIn_or_swallows hother hpath' with hends' | ⟨s, hs, hswallows, rfl⟩
      · exact absurd (stem_eq_of_base_eq (hends.unique hends')) hid
      · exact Or.inr ⟨s, hs, hswallows, hpath⟩
    · exact Or.inl ⟨s, hs, hswallows, hpath'⟩
  · rintro (⟨s, hs, hswallows, hmem⟩ | ⟨s, hs, hswallows, hmem⟩)
    · exact ⟨_, mem_variants_of_swallows hname hs hswallows (mem_variants.1 hmem).1, hmem⟩
    · exact ⟨_, hmem, mem_variants_of_swallows hother hs hswallows (mem_variants.1 hmem).1⟩

end Path

/-! ## Who owns a path -/

namespace IncludeGraph

variable {layout : Path.Layout} {files others : List SourceFile}

theorem unambiguous_of_plain (hplain : ∀ f ∈ files, Path.Plain f.name)
    (h : ∀ f ∈ files, ∀ g ∈ files, f.groupId ≠ g.groupId → ¬ layout.Confuses f.name g.name) :
    Unambiguous layout files := by
  intro f hf g hg path hpath hpath'
  by_contra hid
  rcases (Path.exists_mem_variants_iff (hplain f hf) (hplain g hg) hid).1
    ⟨path, hpath, hpath'⟩ with hfg | hgf
  · exact h f hf g hg hid hfg
  · exact h g hg f hf (Ne.symm hid) hgf

/-- **Where no path belongs to two ids, files in another order register the same paths.** -/
theorem Unambiguous.lookup_registry_of_perm (h : Unambiguous layout files)
    (hperm : files.Perm others) (path : String) :
    (registry layout files).lookup path = (registry layout others).lookup path := by
  refine Option.ext fun id => ?_
  rw [lookup_registry, lookup_registry, h.owns_iff, (h.of_perm hperm).owns_iff]
  simp only [hperm.mem_iff]

/-- **Files of two ids have no path in common, unless a search swallows one of them.**  Such a
search strips the whole path of the one file and puts a path of the other in its place; where this
happens the two have that path in common.  Among files to which it does not happen, a path is owned
by the same id in whatever order they are listed. -/
theorem variants_shared_iff (layout : Path.Layout) :
    (∀ name other, Path.Plain name → Path.Plain other → Path.stem name ≠ Path.stem other →
      ((∃ path ∈ Path.variants layout name, path ∈ Path.variants layout other)
        ↔ layout.Confuses name other ∨ layout.Confuses other name))
    ∧ ∀ files others : List SourceFile, (∀ f ∈ files, Path.Plain f.name) →
      (∀ f ∈ files, ∀ g ∈ files, f.groupId ≠ g.groupId → ¬ layout.Confuses f.name g.name) →
      files.Perm others →
      ∀ path, (registry layout files).lookup path = (registry layout others).lookup path := by
  refine ⟨fun name other hname hother hid => Path.exists_mem_variants_iff hname hother hid,
    fun files others hplain hconfused hperm path => ?_⟩
  exact (unambiguous_of_plain hplain hconfused).lookup_registry_of_perm hperm path

/-- A package that finds its headers below one directory, and those of a directory of their own
below another: no header is swallowed. -/
theorem variants_shared_iff_public :
    let layout : Path.Layout := ⟨"pkg", "", "mylib", [⟨"/pkg/public", "pub"⟩]⟩
    Path.Plain "a.h" ∧ Path.Plain "public/b.h" ∧ Path.stem "a.h" ≠ Path.stem "public/b.h"
    ∧ Path.variants layout "a.h" = ["pkg/a.h", "mylib/a.h", "a.h", "pub/pkg/a.h"]
    ∧ Path.variants layout "public/b.h"
      = ["pkg/public/b.h", "mylib/public/b.h", "public/b.h", "pub/b.h"]
    ∧ ¬ (∃ path ∈ Path.variants layout "a.h", path ∈ Path.variants layout "public/b.h")
    ∧ ∀ path, (registry layout [⟨"a.h", []⟩, ⟨"public/b.h", []⟩]).lookup path
      = (registry layout [⟨"public/b.h", []⟩, ⟨"a.h", []⟩]).lookup path := by
  intro layout
  obtain ⟨hshared, hregistry⟩ := variants_shared_iff layout
  have ha : Path.Plain "a.h" := by decide +kernel
  have hb : Path.Plain "public/b.h" := by decide +kernel
  have hid : Path.stem "a.h" ≠ Path.stem "public/b.h" := by decide +kernel
  have hab : ¬ layout.Confuses "a.h" "public/b.h" := by decide +kernel
  have hba : ¬ layout.Confuses "public/b.h" "a.h" := by decide +kernel
  refine ⟨ha, hb, hid,
    by decide +kernel, by decide +kernel, fun h => ?_, hregistry _ _ ?_ ?_ (.swap _ _ _)⟩
  · exact ((hshared _ _ ha hb hid).1 h).elim hab hba
  · exact List.forall_mem_cons.2 ⟨ha, List.forall_mem_singleton.2 hb⟩
  · simp only [List.forall_mem_cons, List.not_mem_nil, false_imp_iff, implies_true, and_true]
    exact ⟨⟨fun h => absurd rfl h, fun _ => hab⟩, fun _ => hba, fun h => absurd rfl h⟩

/-- **A search that strips the whole path of one header and puts the name of another in its place**:
the two have that name in common, and the header that is listed last owns it. -/
theorem variants_shared_swallowed :
    let layout : Path.Layout := ⟨"", "a.h", "b.h", []⟩
    Path.Plain "a.h" ∧ Path.Plain "b.h" ∧ Path.stem "a.h" ≠ Path.stem "b.h"
    ∧ "b.h" ∈ Path.variants layout "a.h" ∧ "b.h" ∈ Path.variants layout "b.h"
    ∧ (registry layout [⟨"a.h", []⟩, ⟨"b.h", []⟩]).lookup "b.h" = some "b"
    ∧ (registry layout [⟨"b.h", []⟩, ⟨"a.h", []⟩]).lookup "b.h" = some "a" := by
  decide +kernel

end IncludeGraph

end IncludeScan
