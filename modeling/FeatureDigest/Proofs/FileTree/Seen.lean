import FeatureDigest.Proofs.FileTree.Spelled
import FeatureDigest.Proofs.Path.Relative

/-!
# Paths seen from the top

What a path leads to has a path seen from the top, canonical or absolute.  Such a path tells the
place by its pieces alone (`FileTree.Seen`), so that two of them that name the same components
stand for the same place (`FileTree.Seen.unique`).  A path that leads to a file ends with a name
(`FileTree.exists_ends`), and so does its absolute path (`FileTree.ends_absolute`).
-/

set_option autoImplicit false

namespace FeatureDigest

namespace Path

theorem filter_ending (path : Path) :
    (path.ending.filter fun piece => !isFiller piece) = [] := by
  rw [ending]
  split <;> rfl

/-- The pieces of a path that are no fillers are those of its steps. -/
theorem filter_steps (path : Path) :
    (path.steps.filter fun piece => !isFiller piece) = path.telling := by
  rw [steps_eq, List.filter_append, filter_ending, List.append_nil, telling_eq_filter_named]

/-- The last step of a path is its last piece. -/
theorem getLast?_steps (path : Path) : path.steps.getLast? = path.spelling.pieces.getLast? := by
  have hne : path.spelling.pieces ≠ [] := Spelling.pieces_ofText_ne_nil _
  have hlast := List.getLast?_eq_some_getLast hne
  obtain ⟨front, hfront⟩ := List.getLast?_eq_some_iff.1 hlast
  generalize path.spelling.pieces.getLast hne = last at hlast hfront
  rw [steps_eq, ending, hlast]
  by_cases hempty : last = []
  · rw [hempty, if_pos rfl, List.getLast?_concat]
  · have hkept : ([last].filter fun piece => piece ≠ []) = [last] := by
      simpa using hempty
    rw [if_neg (fun hsome => hempty (Option.some.inj hsome)), List.append_nil, named, hfront,
      List.filter_append, hkept, List.getLast?_concat]

/-- The components of a path from the top are told by its pieces that are no fillers. -/
theorem components_eq_telling {path : Path} (h : path.isAbsolute = true) :
    path.components = .top :: path.telling.filterMap Component.ofPiece? := by
  have hfillers : (fun piece => if (!isFiller piece) = true then Component.ofPiece? piece else none)
      = Component.ofPiece? := by
    funext piece
    cases hfiller : isFiller piece with
    | true => exact (Component.ofPiece?_filler hfiller).symm
    | false => rfl
  rw [components_of_isAbsolute h, telling, List.filterMap_filter, hfillers]

end Path

namespace FileTree

variable {tree : FileTree}

/-! ## What the last piece leads to -/

theorem Hop.not_link {place next : Place} {piece : Piece} (h : Hop tree place piece next) :
    ∀ target, tree.at? next ≠ some (.link target) := by
  intro target hlink
  cases h with
  | stay hfolder _ =>
    rw [hfolder] at hlink
    cases hlink
  | up hfolder =>
    obtain ⟨above, habove⟩ := folder_dropLast hfolder
    rw [habove] at hlink
    cases hlink
  | down hfolder hfound hkind =>
    rw [at?_child hfolder, hfound] at hlink
    cases hlink
    exact hkind rfl

/-- The last of some pieces makes the last hop, or names a link, or is left after one. -/
theorem advance_concat_cases {place : Place} {pieces : List Piece} {last : Piece} {stop : Stop}
    (h : tree.advance .target place (pieces ++ [last]) = .ok stop) :
    (∃ met reached, Hop tree met last reached ∧ stop = .place reached) ∨
      (∃ met target, Meets tree met last target ∧ stop = .link met target []) ∨
      ∃ folder target rest, stop = .link folder target (rest ++ [last]) := by
  rw [advance_append] at h
  split at h
  · cases h
  · rename_i met _
    rcases advance_target_cases h with ⟨next, hop, hnext⟩ | ⟨target, meets, hstop⟩
    · rw [advance_nil] at hnext
      cases hnext
      exact Or.inl ⟨met, next, hop, rfl⟩
    · exact Or.inr (Or.inl ⟨met, target, meets, hstop⟩)
  · rename_i folder target rest _
    cases h
    exact Or.inr (Or.inr ⟨folder, target, rest, rfl⟩)

/-- The last of some pieces makes the last hop, or names a link. -/
theorem Follows.last_cases {links : Nat} {place reached : Place} {pieces : List Piece}
    {last : Piece} (h : Follows tree .target links place (pieces ++ [last]) reached) :
    (∃ met, Hop tree met last reached) ∨ ∃ met target, Meets tree met last target := by
  -- What is left at a link ends with the same piece, so the induction is on all pieces.
  generalize hall : pieces ++ [last] = all at h
  induction h generalizing pieces with
  | place hstop =>
    rw [← hall] at hstop
    rcases advance_concat_cases hstop with ⟨met, _, hop, heq⟩ | ⟨_, _, _, heq⟩ | ⟨_, _, _, heq⟩
    · cases heq
      exact Or.inl ⟨met, hop⟩
    · cases heq
    · cases heq
  | link hstop hstart _ ih =>
    rw [← hall] at hstop
    rcases advance_concat_cases hstop with
      ⟨_, _, _, heq⟩ | ⟨met, target, meets, _⟩ | ⟨_, _, left, heq⟩
    · cases heq
    · exact Or.inr ⟨met, target, meets⟩
    · cases heq
      exact ih (List.append_assoc ..)

/-- Pieces lead to what is no link. -/
theorem Follows.not_link {links : Nat} {place reached : Place} {pieces : List Piece}
    (h : Follows tree .target links place pieces reached) (hne : pieces ≠ []) :
    ∀ target, tree.at? reached ≠ some (.link target) := by
  induction h with
  | @place links place reached pieces hstop =>
    obtain ⟨front, hfront⟩ := List.getLast?_eq_some_iff.1 (List.getLast?_eq_some_getLast hne)
    rw [hfront] at hstop
    rcases advance_concat_cases hstop with ⟨_, _, hop, heq⟩ | ⟨_, _, _, heq⟩ | ⟨_, _, _, heq⟩
    · cases heq
      exact hop.not_link
    · cases heq
    · cases heq
  | link _ hstart _ ih => exact ih (ne_nil_of_start hstart _)

theorem kind_ne_link {path : Path} {place : Place} {node : Node}
    (h : tree.find .target path = .ok (place, node)) : node.kind ≠ .link := by
  obtain ⟨-, hfollows, hat⟩ := find_eq_ok_iff.1 h
  cases node with
  | file content => exact nofun
  | folder entries => exact nofun
  | link target => exact absurd hat (hfollows.not_link path.steps_ne_nil target)

/-- A path that leads to a file ends with a name. -/
theorem exists_ends {path : Path} {place : Place} {content : ByteArray}
    (h : tree.find .target path = .ok (place, .file content)) :
    ∃ name : FileName, path.Ends name.piece := by
  obtain ⟨-, hfollows, hat⟩ := find_eq_ok_iff.1 h
  have hlast := List.getLast?_eq_some_getLast path.steps_ne_nil
  obtain ⟨front, hfront⟩ := List.getLast?_eq_some_iff.1 hlast
  generalize path.steps.getLast path.steps_ne_nil = last at hlast hfront
  rw [Path.getLast?_steps] at hlast
  rw [hfront] at hfollows
  rcases hfollows.last_cases with ⟨met, hop⟩ | ⟨met, target, meets⟩
  · cases hop with
    | stay hfolder _ =>
      rw [hat] at hfolder
      cases hfolder
    | up hfolder =>
      obtain ⟨above, habove⟩ := folder_dropLast hfolder
      rw [hat] at habove
      cases habove
    | @down entries name child => exact ⟨name, hlast, Component.ofPiece?_name name⟩
  · cases meets with
    | @link entries name target => exact ⟨name, hlast, Component.ofPiece?_name name⟩

/-! ## Places seen from the top -/

/-- A path from the top leads to a place by its pieces alone, however long it is. -/
structure Seen (tree : FileTree) (path : Path) (place : Place) : Prop where
  isAbsolute : path.isAbsolute = true
  follows : Follows tree .target maxLinks [] path.telling place

/-- Paths seen from the top that name the same components stand for the same place. -/
theorem Seen.unique {first second : Path} {place other : Place} (hfirst : tree.Seen first place)
    (hsecond : tree.Seen second other) (h : first.components = second.components) :
    place = other := by
  have hplace := follow_eq_ok_iff.2 hfirst.follows
  have hother := follow_eq_ok_iff.2 hsecond.follows
  rw [Path.telling_eq, h, ← Path.telling_eq, hother] at hplace
  exact (Except.ok.inj hplace).symm

theorem seen_ofPlace {place : Place} {node : Node} (hat : tree.at? place = some node)
    (hkind : node.kind ≠ .link) : tree.Seen (Path.ofPlace place) place := by
  refine ⟨Path.isAbsolute_ofPieces _, .place ?_⟩
  have hfromTop : tree.at? ([] ++ place) = some node := hat
  have htelling : (Path.ofPlace place).telling = place.pieces ++ [] := by
    rw [Path.telling_eq, Path.components_ofPlace, List.filterMap_cons_none rfl,
      Place.filterMap_piece?, List.append_nil]
  rw [htelling, advance_places (by decide) (by decide) hfromTop hkind, advance_nil,
    List.nil_append]

/-- A path that starts at the top and leads to a node is seen from there. -/
theorem seen_of_find {path : Path} {place : Place} {node : Node}
    (h : tree.find .target path = .ok (place, node)) (habsolute : path.isAbsolute = true) :
    tree.Seen path place := by
  obtain ⟨-, hfollows, -⟩ := find_eq_ok_iff.1 h
  rw [origin, habsolute, if_pos rfl] at hfollows
  refine ⟨habsolute, hfollows.thins ?_⟩
  rw [← path.filter_steps]
  exact Thins.filter _

/-- The pieces of an absolute path that are no fillers are those from the top. -/
theorem telling_absolute (tree : FileTree) (path : Path) :
    (tree.absolute path).telling = tree.fromTop path := by
  have hkept : (tree.fromTop path).filter (fun piece => !isFiller piece) = tree.fromTop path := by
    apply List.filter_eq_self.2
    intro piece hpiece
    rcases mem_fromTop hpiece with ⟨name, -, rfl⟩ | ⟨-, hfiller⟩
    · rw [name.not_isFiller]
      rfl
    · rw [hfiller]
      rfl
  rw [← Path.filter_steps, steps_absolute]
  split
  · rename_i hempty
    rw [hempty]
    rfl
  · rw [List.filter_append, hkept, Path.filter_ending, List.append_nil]

theorem seen_absolute {path : Path} {place : Place} {node : Node}
    (h : tree.find .target path = .ok (place, node)) : tree.Seen (tree.absolute path) place := by
  have hthins : Thins (tree.fromTop path ++ path.ending)
      (tree.fromTop path ++ path.ending.filter fun piece => !isFiller piece) :=
    (Thins.refl _).append (Thins.filter _)
  rw [Path.filter_ending, List.append_nil] at hthins
  refine ⟨isAbsolute_absolute tree path, ?_⟩
  rw [telling_absolute]
  exact (follows_fromTop h).thins hthins

/-- The absolute path of a path from the top names what the path names. -/
theorem components_absolute {path : Path} (h : path.isAbsolute = true) :
    (tree.absolute path).components = path.components := by
  have hfrom : tree.fromTop path = path.telling := by
    rw [fromTop, origin, if_pos h]
    rfl
  rw [Path.components_eq_telling (isAbsolute_absolute tree path), telling_absolute, hfrom,
    Path.components_eq_telling h]

/-! ## Names that paths of files end with -/

theorem ends_ofPlace {place : Place} {name : FileName} (h : place.getLast? = some name) :
    (Path.ofPlace place).Ends name.piece := by
  have hlast : place.pieces.getLast? = some name.piece := by
    rw [Place.pieces, List.getLast?_map, h]
    rfl
  have hne : place.pieces ≠ [] := by
    intro hnone
    rw [hnone] at hlast
    cases hlast
  refine ⟨?_, Component.ofPiece?_name name⟩
  rw [Path.ofPlace, Path.spelling_ofPieces hne place.slash_not_mem, hlast]

/-- The absolute path of a path that ends with a name ends with the name. -/
theorem ends_absolute {path : Path} {name : Piece} (h : path.Ends name) :
    (tree.absolute path).Ends name := by
  refine ⟨?_, h.names⟩
  obtain ⟨front, hfront⟩ := List.getLast?_eq_some_iff.1 h.last
  have htelling : path.telling = (front.filter fun piece => !isFiller piece) ++ [name] := by
    rw [Path.telling, hfront, List.filter_append,
      List.filter_cons_of_pos (by rw [h.not_isFiller]; rfl), List.filter_nil]
  have hne : name ≠ [] := by
    rintro rfl
    cases h.names
  have hending : path.ending = [] := by
    rw [Path.ending, h.last, if_neg fun hempty => hne (Option.some.inj hempty)]
  have hfrom : tree.fromTop path ≠ [] := by
    rw [fromTop, htelling]
    simp
  rw [← Path.getLast?_steps, steps_absolute, if_neg hfrom, hending, List.append_nil, fromTop,
    htelling, ← List.append_assoc, List.getLast?_concat]

end FileTree

end FeatureDigest
