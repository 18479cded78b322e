import FeatureDigest.Proofs.Path.Fillers
import FeatureDigest.Scan.Selection

/-!
# Paths left out by name

Without patterns, a path of a walk is left out when what leads to it from the root, or the root
and what leads on from there, starts with the components of an ignored path
(`Selection.ignores_literal_iff`).  So all below a path that is left out is left out as well
(`Selection.ignores_literal_of_prefix`), which patterns do not promise.

Fillers of an ignored path do not matter (`Path.barred_eq_bare`).  An ignored path that leaves out
an entry of a folder, but not the folder, ends with the entry's name
(`Selection.getLast?_bare_of_ignores`), so that it leaves out no other entry of the folder, however
alike their names are (`Selection.ignores_whole_components`).
-/

set_option autoImplicit false

namespace FeatureDigest

namespace Path

/-- The components that an ignored path leaves out what starts with: those of the path, less a
`.` in front. -/
def barred (ignored : Path) : List Component := (ignored.relativeTo ⟨"."⟩).components

theorem barred_eq {ignored : Path} (h : ignored.components.head? ≠ some .here) :
    ignored.barred = ignored.components := by
  have hhere : (⟨"."⟩ : Path).components = [.here] := by decide
  rw [barred, relativeTo_of_not_prefix]
  rw [hhere]
  rintro ⟨rest, hrest⟩
  rw [← hrest] at h
  exact h rfl

/-- However an ignored path is spelled, it leaves out what starts with what it names. -/
theorem barred_eq_bare (ignored : Path) : ignored.barred = ignored.bare := by
  rcases ignored.components_cases with hsame | hdot
  · have hhead : ignored.components.head? ≠ some .here := by
      rw [hsame]
      exact fun hhere => ignored.here_not_mem_bare (List.mem_of_head? hhere)
    rw [barred_eq hhead, hsame]
  · have hhere : (⟨"."⟩ : Path).components = [.here] := by decide
    have hstarts : (⟨"."⟩ : Path).components <+: ignored.components := by
      rw [hhere, hdot]
      exact ⟨ignored.bare, rfl⟩
    rw [barred, components_relativeTo hstarts, hhere, hdot]
    rfl

/-- What names lead to below a path has their components relative to the path. -/
theorem components_relativeTo_under (path : Path) (names : Place) :
    ((path.under names).relativeTo path).components = names.components := by
  have hunder := components_under path names
  rw [components_relativeTo ⟨_, hunder.symm⟩, hunder, List.drop_left]

end Path

theorem Place.components_prefix {front names : Place} (h : front <+: names) :
    front.components <+: names.components := by
  obtain ⟨rest, rfl⟩ := h
  rw [Place.components_append]
  exact List.prefix_append _ _

namespace Selection

/-- The selection without its patterns. -/
def literal (selection : Selection) : Selection := { selection with patterns := [] }

theorem startsWithIgnored_iff {path ignored : Path} :
    startsWithIgnored path ignored = true ↔ ignored.barred <+: path.components :=
  Path.startsWith_iff

/-- Without patterns, what names lead to is left out for its components alone, those below the
root or all of them. -/
theorem ignores_literal_iff {selection : Selection} {root : Path} {names : Place} :
    selection.literal.ignores root (root.under names) = true
      ↔ ∃ ignored ∈ selection.paths, ignored.barred <+: names.components ∨
          ignored.barred <+: root.components ++ names.components := by
  simp only [ignores, literal, List.any_nil, Bool.or_false, List.any_eq_true, Bool.or_eq_true,
    startsWithIgnored_iff, Path.components_relativeTo_under, Path.components_under]

/-- What is below a path that is left out without patterns is left out. -/
theorem ignores_literal_of_prefix {selection : Selection} {root : Path} {front names : Place}
    (hbegins : front <+: names)
    (h : selection.literal.ignores root (root.under front) = true) :
    selection.literal.ignores root (root.under names) = true := by
  obtain ⟨ignored, hmem, hbarred⟩ := ignores_literal_iff.1 h
  have hnames := Place.components_prefix hbegins
  refine ignores_literal_iff.2 ⟨ignored, hmem, ?_⟩
  rcases hbarred with hbelow | hwhole
  · exact Or.inl (hbelow.trans hnames)
  · exact Or.inr (hwhole.trans ((List.prefix_append_right_inj root.components).2 hnames))

/-- What is not left out is not left out without patterns. -/
theorem ignores_literal_of_clear {selection : Selection} {root path : Path}
    (h : selection.ignores root path = false) : selection.literal.ignores root path = false := by
  simp only [ignores, Bool.or_eq_false_iff] at h
  simp only [ignores, literal, List.any_nil, Bool.or_false]
  exact h.1

/-! ## One ignored path -/

/-- The selection that leaves out one path and what is below it. -/
def only (ignored : Path) : Selection := { standard with patterns := [], paths := [ignored] }

theorem ignores_only_iff {ignored root path : Path} (hbelow : root.components <+: path.components) :
    (only ignored).ignores root path = true
      ↔ ignored.bare <+: path.components.drop root.components.length
          ∨ ignored.bare <+: path.components := by
  simp only [ignores, only, List.any_nil, List.any_cons, Bool.or_false, Bool.or_eq_true,
    startsWithIgnored_iff, Path.barred_eq_bare, Path.components_relativeTo hbelow]

/-- Each ignored path leaves out what it leaves out alone. -/
theorem ignores_insert (selection : Selection) (front back : List Path) (ignored root path : Path) :
    { selection with paths := front ++ ignored :: back }.ignores root path
      = ((only ignored).ignores root path
          || { selection with paths := front ++ back }.ignores root path) := by
  simp only [ignores, only, List.any_append, List.any_cons, List.any_nil, Bool.or_false,
    Bool.or_assoc, Bool.or_left_comm]

theorem ignores_only_congr {ignored other : Path} (h : other.bare = ignored.bare)
    (root path : Path) : (only other).ignores root path = (only ignored).ignores root path := by
  have hstarts (reached : Path) :
      startsWithIgnored reached other = startsWithIgnored reached ignored := by
    rw [Bool.eq_iff_iff, startsWithIgnored_iff, startsWithIgnored_iff, Path.barred_eq_bare,
      Path.barred_eq_bare, h]
  simp only [ignores, only, List.any_cons, hstarts]

/-- An ignored path that leaves out an entry of a folder, but not the folder, ends with the name of
the entry. -/
theorem getLast?_bare_of_ignores {ignored root folder entry : Path} {name : Piece}
    (hroot : root.components <+: folder.components)
    (hentry : entry.components = folder.components ++ [.name name])
    (hfolder : (only ignored).ignores root folder = false)
    (h : (only ignored).ignores root entry = true) :
    ignored.bare.getLast? = some (.name name) := by
  have hbelow : root.components <+: entry.components := by
    rw [hentry]
    exact hroot.trans (List.prefix_append _ _)
  rw [← Bool.not_eq_true, ignores_only_iff hroot, not_or] at hfolder
  rw [ignores_only_iff hbelow, hentry, List.drop_append_of_le_length hroot.length_le,
    List.prefix_concat_iff, List.prefix_concat_iff] at h
  rcases h with (hends | habove) | (hends | habove)
  · rw [hends, List.getLast?_concat]
  · exact absurd habove hfolder.1
  · rw [hends, List.getLast?_concat]
  · exact absurd habove hfolder.2

/-- An ignored path leaves out, of the paths below a root, those whose components start with what it
names, below the root or as a whole, where a `.` that the root starts with counts; beside other
ignored paths and patterns it leaves out what it leaves out alone.  All spellings of it, which
differ in fillers only, leave out the same.  And when it leaves out an entry of a folder but not the
folder, it leaves out no other entry of the folder, though its name may go on from the same
characters. -/
theorem ignores_whole_components (ignored root : Path) :
    (∀ path : Path, root.components <+: path.components →
        ((only ignored).ignores root path = true
          ↔ ignored.bare <+: path.components.drop root.components.length
              ∨ ignored.bare <+: path.components)) ∧
      (∀ (selection : Selection) (front back : List Path) (path : Path),
        { selection with paths := front ++ ignored :: back }.ignores root path
          = ((only ignored).ignores root path
              || { selection with paths := front ++ back }.ignores root path)) ∧
      (∀ other : Path, (other.Respells ignored ↔ other.bare = ignored.bare) ∧
        (other.bare = ignored.bare → ∀ path : Path,
          (only other).ignores root path = (only ignored).ignores root path)) ∧
      ∀ (folder entry sibling : Path) (name other : Piece), name ≠ other →
        root.components <+: folder.components →
        entry.components = folder.components ++ [.name name] →
        sibling.components = folder.components ++ [.name other] →
        (only ignored).ignores root folder = false →
        (only ignored).ignores root entry = true →
        (only ignored).ignores root sibling = false := by
  refine ⟨fun path hbelow => ignores_only_iff hbelow, ?_, ?_, ?_⟩
  · intro selection front back path
    exact ignores_insert selection front back ignored root path
  · intro other
    exact ⟨Path.respells_iff, fun h path => ignores_only_congr h root path⟩
  · intro folder entry sibling name other hne hroot hentry hsibling hfolder h
    have hname := getLast?_bare_of_ignores hroot hentry hfolder h
    cases hother : (only ignored).ignores root sibling with
    | false => rfl
    | true =>
      rw [getLast?_bare_of_ignores hroot hsibling hfolder hother] at hname
      cases hname
      exact absurd rfl hne

/-- A path ignored under an odd spelling: the entry that it names is left out with what is below it,
also under another spelling, and the entry beside it with a longer name is not. -/
theorem ignores_whole_components_odd :
    (⟨"r/."⟩ : Path).components <+: (⟨"r/./d/e/x"⟩ : Path).components ∧
      (⟨"d/./e"⟩ : Path).bare = (⟨"./d//e/"⟩ : Path).bare ∧
      (only ⟨"./d//e/"⟩).ignores ⟨"r/."⟩ ⟨"r/./d/e/x"⟩ = true ∧
      (only ⟨"d/./e"⟩).ignores ⟨"r/."⟩ ⟨"r/./d/e/x"⟩ = true ∧
      (only ⟨"./d//e/"⟩).ignores ⟨"r/."⟩ ⟨"r/./d"⟩ = false ∧
      (only ⟨"./d//e/"⟩).ignores ⟨"r/."⟩ ⟨"r/./d/e"⟩ = true ∧
      (only ⟨"./d//e/"⟩).ignores ⟨"r/."⟩ ⟨"r/./d/ex"⟩ = false := by
  obtain ⟨halone, -, hspelled, hbeside⟩ := ignores_whole_components ⟨"./d//e/"⟩ ⟨"r/."⟩
  have hbelow : (⟨"r/."⟩ : Path).components <+: (⟨"r/./d/e/x"⟩ : Path).components := by
    decide +kernel
  have hfolder : (⟨"r/."⟩ : Path).components <+: (⟨"r/./d"⟩ : Path).components := by
    decide +kernel
  have hsame : (⟨"d/./e"⟩ : Path).bare = (⟨"./d//e/"⟩ : Path).bare := by decide +kernel
  have hfar := (halone _ hbelow).2 (Or.inl (by decide +kernel))
  have hclear : (only ⟨"./d//e/"⟩).ignores ⟨"r/."⟩ ⟨"r/./d"⟩ = false := by decide +kernel
  have hentry : (only ⟨"./d//e/"⟩).ignores ⟨"r/."⟩ ⟨"r/./d/e"⟩ = true := by decide +kernel
  refine ⟨hbelow, hsame, hfar, ((hspelled _).2 hsame _).trans hfar, hclear, hentry, ?_⟩
  exact hbeside _ _ ⟨"r/./d/ex"⟩ ['e'] ['e', 'x'] (by decide) hfolder (by decide +kernel)
    (by decide +kernel) hclear hentry

end Selection

end FeatureDigest
