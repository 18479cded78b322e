import FeatureDigest.Proofs.Glob.Folder
import FeatureDigest.Proofs.Path.Walked
import FeatureDigest.Proofs.Scan.Literal
import FeatureDigest.Proofs.Scan.Narrowing

/-!
# Walks that leave out folders by name

A walk goes no further below a path that its patterns match, and so may miss files that no
pattern matches.  It misses none where a pattern matches all that goes on from what it matches
(`Glob.Pattern.Grows`): such a walk finds what the walk without ignores does, less what is matched
itself (`Walk.trace_eq_filter_of_grows`).  The patterns of a folder are such patterns, so a walk
that ignores the folders of one name finds all but what is in such a folder, at every depth and
however its root is written (`Walk.trace_folder_patterns`).
-/

set_option autoImplicit false

namespace FeatureDigest

/-! ## What is left out -/

namespace Path

/-- A piece of the relative path of names is one of their path as well. -/
theorem mem_dropLast_of_relativeTo {word : Piece} (h : '/' ∉ word) (root : Path) (names : Place)
    (hmem : word ∈ (splitSlash ((root.under names).relativeTo root).text.toList).dropLast) :
    word ∈ (splitSlash (root.under names).text.toList).dropLast := by
  rw [relativeTo_under] at hmem
  have hnames : names ≠ [] := by
    rintro rfl
    cases hmem
  rw [ofNames, String.toList_ofList, mem_dropLast_splitSlash_iff h] at hmem
  rw [text_under root hnames, mem_dropLast_splitSlash_iff h]
  rcases root.stem_cases with ⟨hstem, -⟩ | ⟨body, hstem, -⟩
  · rw [hstem]
    exact hmem
  · rw [hstem, List.append_assoc]
    exact hmem.after_slash body

end Path

namespace Selection

theorem ignores_iff {selection : Selection} {root path : Path} :
    selection.ignores root path = true
      ↔ selection.literal.ignores root path = true ∨
        ∃ pattern ∈ selection.patterns, pattern.matches path.text = true ∨
          pattern.matches (path.relativeTo root).text = true := by
  simp only [ignores, literal, List.any_nil, Bool.or_false, Bool.or_eq_true, List.any_eq_true]

/-- What is below a path that is left out is left out, as far as the patterns match what is below
what they match. -/
theorem ignores_of_shut {selection : Selection} {root : Path} {names : Place}
    (hgrows : ∀ pattern ∈ selection.patterns, pattern.Grows) (h : selection.Shut root names) :
    selection.ignores root (root.under names) = true := by
  obtain ⟨front, hfront, hignored⟩ := h
  have hwalked := Path.text_under_prefix root hfront
  have hrelative := Path.text_ofNames_prefix hfront
  rw [← Path.relativeTo_under root, ← Path.relativeTo_under root] at hrelative
  rw [ignores_iff] at hignored ⊢
  rcases hignored with hliteral | ⟨pattern, hpattern, hmatches | hmatches⟩
  · have hbelow := ignores_literal_of_prefix hfront hliteral
    exact Or.inl hbelow
  · exact Or.inr ⟨pattern, hpattern, Or.inl (hgrows pattern hpattern _ _ hwalked hmatches)⟩
  · exact Or.inr ⟨pattern, hpattern, Or.inr (hgrows pattern hpattern _ _ hrelative hmatches)⟩

/-- The selection of a configuration with one entry to ignore, which is a pattern. -/
theorem ofConfig_pattern (config : Config) {entry : String} {pattern : Glob.Pattern}
    (hglob : isGlob entry = true) (hcompile : Glob.compile entry = .ok pattern) :
    ofConfig { config with ignores := [entry] } = ⟨config.extensions, [pattern], []⟩ := by
  simp [ofConfig, Config.ignorePatterns, Config.ignorePaths, Config.pattern?, hglob, hcompile,
    Except.toOption]

end Selection

/-! ## Walks -/

namespace Walk

/-- With a pattern that matches what is below what it matches, a walk finds what the walk
without ignores does, less what the pattern matches. -/
theorem trace_eq_filter_of_grows (tree : FileTree) (root : Path) (extensions : List String)
    {pattern : Glob.Pattern} (hgrows : pattern.Grows) (matched : Path → Prop)
    [DecidablePred matched]
    (hmatched : ∀ names, pattern.matches (root.under names).text = true ∨
        pattern.matches ((root.under names).relativeTo root).text = true
      ↔ matched (root.under names)) :
    (start root ⟨extensions, [pattern], []⟩).trace tree
      = ((start root ⟨extensions, [], []⟩).trace tree).filter fun seen => ¬ matched seen.1 := by
  have hnarrower := Selection.narrower_all ⟨extensions, [pattern], []⟩
  rw [trace_eq_filter_of_descends hnarrower rfl fun names hshut =>
    Selection.ignores_of_shut (by simpa using hgrows) hshut]
  refine List.filter_congr fun seen hseen => ?_
  obtain ⟨names, hunder⟩ := (trace_under tree root _ seen hseen).1
  rw [clear, hunder, Bool.eq_iff_iff, decide_eq_true_iff, ← hmatched names]
  simp [Selection.ignores]

/-- With what is in the folders of a name to ignore, a walk finds what the walk without ignores
does, less what has the name among the pieces of its path, the last one apart.  With what is in
the folder of that name at the front to ignore, it is less what has a path or a relative path
that begins with the name and a slash.  What walks find stands for paths below their root, and is
what they yield. -/
theorem trace_folder_patterns {name : String} (hname : Glob.IsWord name.toList) (tree : FileTree)
    (root : Path) (config : Config) :
    let walk (ignores : List String) : Walk :=
      start root (Selection.ofConfig { config with ignores := ignores })
    (walk ["**/" ++ name ++ "/**"]).trace tree
        = ((walk []).trace tree).filter (fun seen =>
            name.toList ∉ (splitSlash seen.1.text.toList).dropLast) ∧
      (walk [name ++ "/**"]).trace tree
        = ((walk []).trace tree).filter (fun seen =>
            ¬ (name.toList ++ ['/'] <+: (seen.1.relativeTo root).text.toList ∨
              name.toList ++ ['/'] <+: seen.1.text.toList)) ∧
      (∀ seen ∈ (walk []).trace tree, (∃ names, seen.1 = root.under names) ∧
        featureFile? tree (walk []).selection seen.1 = some seen.2) ∧
      ∀ ignores, ((walk ignores).drain tree).1 = ((walk ignores).trace tree).map Prod.snd := by
  intro walk
  have hglob (front : String) : isGlob (front ++ "/**") = true := by
    simp [isGlob, String.toList_append]
  have hnone : Selection.ofConfig { config with ignores := [] } = ⟨config.extensions, [], []⟩ :=
    rfl
  have hslash := hname.slash_not_mem
  refine ⟨?_, ?_, trace_under tree root _, fun ignores => drain_eq_trace tree (walk ignores)⟩
  · simp only [walk]
    rw [hnone, Selection.ofConfig_pattern config (hglob _) (Glob.compile_anywhere hname)]
    refine trace_eq_filter_of_grows tree root config.extensions (Glob.grows_anywhere _ hslash)
      (fun path => name.toList ∈ (splitSlash path.text.toList).dropLast) fun names => ?_
    -- The relative path has no folder that the walked path does not have.
    rw [Glob.matches_anywhere_iff hslash, Glob.matches_anywhere_iff hslash]
    exact or_iff_left_of_imp (Path.mem_dropLast_of_relativeTo hslash root names)
  · simp only [walk]
    rw [hnone, Selection.ofConfig_pattern config (hglob _) (Glob.compile_front hname)]
    refine trace_eq_filter_of_grows tree root config.extensions (Glob.grows_front _ _)
      (fun path => name.toList ++ ['/'] <+: (path.relativeTo root).text.toList ∨
        name.toList ++ ['/'] <+: path.text.toList) fun names => ?_
    rw [Glob.matches_front_iff, Glob.matches_front_iff, or_comm]

/-- A folder with a feature file in it. -/
def storyNode : Node := .folder [(⟨['j', '.', 'f'], rfl⟩, .file "Given x".toUTF8)]

/-- Folders of one name at two depths, and a folder with a longer name. -/
def repeatedTree : FileTree :=
  ⟨[(⟨['t'], rfl⟩, .folder [(⟨['l'], rfl⟩, storyNode), (⟨['l', 'l'], rfl⟩, storyNode),
    (⟨['p'], rfl⟩, .folder [(⟨['l'], rfl⟩, storyNode)])])], []⟩

theorem trace_folder_patterns_repeated :
    let walk (ignores : List String) : Walk :=
      start ⟨"t"⟩ (Selection.ofConfig ⟨"./", ["f"], ignores, .text⟩)
    Glob.IsWord "l".toList ∧
      ((walk []).trace repeatedTree).map (fun seen => seen.1.text)
        = ["t/l/j.f", "t/ll/j.f", "t/p/l/j.f"] ∧
      ((walk ["**/l/**"]).trace repeatedTree).map (fun seen => seen.1.text) = ["t/ll/j.f"] ∧
      ((walk ["l/**"]).trace repeatedTree).map (fun seen => seen.1.text)
        = ["t/ll/j.f", "t/p/l/j.f"] := by
  have hname : Glob.IsWord "l".toList := by decide
  have hentries : "**/" ++ "l" ++ "/**" = "**/l/**" ∧ "l" ++ "/**" = "l/**" := by
    decide +kernel
  obtain ⟨hanywhere, hfront, -, -⟩ :=
    trace_folder_patterns hname repeatedTree ⟨"t"⟩ ⟨"./", ["f"], [], .text⟩
  rw [hentries.1] at hanywhere
  rw [hentries.2] at hfront
  refine ⟨hname, by decide +kernel, ?_, ?_⟩
  · refine (congrArg (List.map fun seen => seen.1.text) hanywhere).trans ?_
    decide +kernel
  · refine (congrArg (List.map fun seen => seen.1.text) hfront).trans ?_
    decide +kernel

end Walk

end FeatureDigest
