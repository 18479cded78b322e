import FeatureDigest.Proofs.Path.Walked

/-!
# Relative paths

What a path relative to a base still says of the path.  Joined to the base again it names the
components of the path (`Path.components_join_relativeTo`), which tell canonical paths apart
(`Path.IsCanonical.eq_of_components`).  And it ends with the name that the path ends with, unless
it is empty because the base names the same (`Path.ends_relativeTo`).
-/

set_option autoImplicit false

namespace FeatureDigest

open Component (ofPiece? ofFirstPiece?)

/-! ## What pieces can stand for -/

namespace Component

theorem piece?_of_ofPiece? {piece : Piece} {component : Component}
    (h : ofPiece? piece = some component) : component.piece? = some piece := by
  cases hfiller : isFiller piece with
  | true =>
    rw [ofPiece?_filler hfiller] at h
    cases h
  | false =>
    obtain ⟨other, hother, hpiece⟩ := exists_ofPiece? hfiller
    rw [hother] at h
    rw [← Option.some.inj h]
    exact hpiece

theorem ne_top_of_ofFirstPiece? {piece : Piece} {component : Component}
    (h : ofFirstPiece? piece = some component) : component ≠ .top := by
  intro htop
  rw [htop] at h
  by_cases hdot : piece = ['.']
  · rw [ofFirstPiece?, if_pos hdot] at h
    cases h
  · rw [ofFirstPiece?_of_ne hdot] at h
    cases piece?_of_ofPiece? h

end Component

namespace Spelling

theorem top_not_mem {pieces : List Piece} : Component.top ∉ components ⟨false, pieces⟩ := by
  cases pieces with
  | nil => exact nofun
  | cons first pieces =>
    rw [components, if_neg Bool.false_ne_true]
    intro hmem
    rcases List.mem_append.1 hmem with hfirst | hrest
    · exact Component.ne_top_of_ofFirstPiece? (Option.mem_toList.1 hfirst) rfl
    · obtain ⟨piece, -, hpiece⟩ := List.mem_filterMap.1 hrest
      cases Component.piece?_of_ofPiece? hpiece

/-- Pieces that do not start with `.` name the same after others. -/
theorem components_append {rooted : Bool} {front more : List Piece}
    (h : Component.here ∉ components ⟨false, more⟩) :
    components ⟨rooted, front ++ more⟩
      = components ⟨rooted, front⟩ ++ components ⟨false, more⟩ := by
  have hmore : components ⟨false, more⟩ = more.filterMap ofPiece? := by
    cases more with
    | nil => rfl
    | cons first more =>
      have hdot : first ≠ ['.'] := by
        rintro rfl
        exact h List.mem_cons_self
      rw [components, if_neg Bool.false_ne_true]
      dsimp only
      rw [Component.ofFirstPiece?_of_ne hdot, List.filterMap_cons]
      cases ofPiece? first <;> rfl
  cases rooted with
  | true =>
    rw [hmore, components, components, if_pos rfl, if_pos rfl, List.filterMap_append,
      List.cons_append]
  | false =>
    cases front with
    | nil => rfl
    | cons first front =>
      rw [hmore, components, components, if_neg Bool.false_ne_true, if_neg Bool.false_ne_true]
      simp only [List.cons_append, List.filterMap_append, List.append_assoc]

end Spelling

namespace Path

theorem isAbsolute_iff {path : Path} :
    path.isAbsolute = true ↔ Component.top ∈ path.components := by
  constructor
  · intro h
    rw [components_of_isAbsolute h]
    exact List.mem_cons_self
  · intro h
    unfold components at h
    unfold isAbsolute
    generalize path.spelling = spelling at h ⊢
    obtain ⟨rooted, pieces⟩ := spelling
    cases rooted with
    | true => rfl
    | false => exact absurd h Spelling.top_not_mem

theorem here_not_mem {path : Path} (h : path.isAbsolute = true) :
    Component.here ∉ path.components := by
  rw [components_of_isAbsolute h]
  intro hmem
  rcases List.mem_cons.1 hmem with htop | hmem
  · cases htop
  · obtain ⟨piece, -, hpiece⟩ := List.mem_filterMap.1 hmem
    cases Component.piece?_of_ofPiece? hpiece

/-! ## Joining a relative path again -/

/-- A relative path that does not start with `.` is joined component by component. -/
theorem components_join_of_relative {base rest : Path} (hrelative : rest.isAbsolute = false)
    (hhere : Component.here ∉ rest.components) :
    (base.join rest).components = base.components ++ rest.components := by
  have hrest : Spelling.ofText rest.text.toList = ⟨false, rest.spelling.pieces⟩ := by
    rw [← hrelative]
    rfl
  have hnamed : rest.components = Spelling.components ⟨false, rest.spelling.pieces⟩ :=
    congrArg Spelling.components hrest
  obtain ⟨front, hspelling, hfront⟩ := base.spelling_stem hrest
  rw [hnamed] at hhere ⊢
  rw [components, spelling, toList_text_join_of_relative base hrelative, hspelling,
    Spelling.components_append hhere, hfront]

/-- What is left after the components of an absolute path is relative. -/
theorem isAbsolute_relativeTo {path base : Path} (hbase : base.isAbsolute = true)
    (h : base.components <+: path.components) : (path.relativeTo base).isAbsolute = false := by
  rw [relativeTo, relativeTo?, if_pos (startsWith_iff.2 h), Option.getD_some,
    (components_ofSpelling (Spelling.proper_after path.proper_spelling _)).1,
    components_of_isAbsolute hbase]
  rfl

/-- A path relative to an absolute base names what the path names when it is joined to the base
again. -/
theorem components_join_relativeTo {path base : Path} (hbase : base.isAbsolute = true)
    (h : base.components <+: path.components) :
    (base.join (path.relativeTo base)).components = path.components := by
  have hpath : path.isAbsolute = true := isAbsolute_iff.2 (h.subset (isAbsolute_iff.1 hbase))
  have hrest := components_relativeTo h
  have hhere : Component.here ∉ (path.relativeTo base).components := by
    rw [hrest]
    exact fun hmem => here_not_mem hpath (List.mem_of_mem_drop hmem)
  rw [components_join_of_relative (isAbsolute_relativeTo hbase h) hhere, hrest,
    List.prefix_iff_eq_append.1 h]

/-! ## Canonical paths -/

/-- The path leads down from the top by names alone, with one slash in front of each. -/
def IsCanonical (path : Path) : Prop :=
  ∃ pieces : List Piece, path = ofPieces pieces ∧
    ∀ piece ∈ pieces, '/' ∉ piece ∧ isFiller piece = false ∧ piece ≠ ['.', '.']

theorem IsCanonical.isAbsolute {path : Path} (h : path.IsCanonical) : path.isAbsolute = true := by
  obtain ⟨pieces, rfl, -⟩ := h
  exact isAbsolute_ofPieces pieces

/-- Canonical paths that name the same are spelled the same. -/
theorem IsCanonical.eq_of_components {first second : Path} (hfirst : first.IsCanonical)
    (hsecond : second.IsCanonical) (h : first.components = second.components) :
    first = second := by
  have hnamed {path : Path} (hpath : path.IsCanonical) :
      path = ofPieces (path.components.filterMap Component.piece?) := by
    obtain ⟨pieces, rfl, hpieces⟩ := hpath
    have hkept : (pieces.filter fun piece => !isFiller piece) = pieces := by
      apply List.filter_eq_self.2
      intro piece hpiece
      rw [(hpieces piece hpiece).2.1]
      rfl
    rw [components_ofPieces fun piece hpiece => (hpieces piece hpiece).1,
      List.filterMap_cons_none rfl, Component.filterMap_piece?, hkept]
  rw [hnamed hfirst, hnamed hsecond, h]

/-! ## Paths that end with a name -/

/-- The last piece of the path is a name. -/
structure Ends (path : Path) (name : Piece) : Prop where
  last : path.spelling.pieces.getLast? = some name
  names : ofPiece? name = some (.name name)

theorem Ends.not_isFiller {path : Path} {name : Piece} (h : path.Ends name) :
    isFiller name = false := by
  cases hfiller : isFiller name with
  | true =>
    have hnames := h.names
    rw [Component.ofPiece?_filler hfiller] at hnames
    cases hnames
  | false => rfl

/-- The last component of a path that ends with a name is the name. -/
theorem Ends.getLast?_components {path : Path} {name : Piece} (h : path.Ends name) :
    path.components.getLast? = some (.name name) := by
  obtain ⟨front, hfront⟩ := List.getLast?_eq_some_iff.1 h.last
  have hlone : Spelling.components ⟨false, [name]⟩ = [.name name] := by
    rw [Spelling.components_cons h.not_isFiller, List.filterMap_cons_some h.names,
      List.filterMap_nil]
  have hhere : Component.here ∉ Spelling.components ⟨false, [name]⟩ := by
    rw [hlone]
    exact fun hmem => nomatch List.mem_singleton.1 hmem
  have hspelling : path.spelling = ⟨path.spelling.rooted, front ++ [name]⟩ := by
    rw [← hfront]
  rw [components, hspelling, Spelling.components_append hhere, hlone, List.getLast?_concat]

theorem Ends.fileName? {path : Path} {name : Piece} (h : path.Ends name) :
    path.fileName? = some name := by
  rw [Path.fileName?, h.getLast?_components]

/-- The text of a path that ends with a name ends with the name. -/
theorem Ends.suffix {path : Path} {name : Piece} (h : path.Ends name) :
    name <:+ path.text.toList := by
  obtain ⟨front, hfront⟩ := List.getLast?_eq_some_iff.1 h.last
  have hjoin : name <:+ joinSlash (front ++ [name]) := by
    by_cases hnone : front = []
    · rw [hnone]
      exact List.suffix_rfl
    · rw [joinSlash_append hnone (List.cons_ne_nil name [])]
      exact (List.suffix_cons '/' name).trans (List.suffix_append _ _)
  have htext : path.spelling.text = path.text.toList := Spelling.text_ofText _
  rw [← htext, Spelling.text, hfront]
  split
  · exact hjoin.trans (List.suffix_cons _ _)
  · exact hjoin

end Path

/-! ## What is left at the end -/

theorem dropTrailingFillers_of_getLast? {pieces : List Piece} {last : Piece}
    (h : pieces.getLast? = some last) (hlast : isFiller last = false) :
    dropTrailingFillers pieces = pieces := by
  obtain ⟨⟨fillers, hpieces, hfillers⟩, -⟩ := exists_dropTrailingFillers pieces
  rcases List.eq_nil_or_concat fillers with hnone | ⟨front, filler, hconcat⟩
  · rw [hnone, List.append_nil] at hpieces
    exact hpieces.symm
  · rw [hconcat, List.concat_eq_append] at hpieces hfillers
    rw [hpieces, ← List.append_assoc, List.getLast?_concat] at h
    cases h
    rw [hfillers last (List.mem_append_right front List.mem_cons_self)] at hlast
    cases hlast

theorem dropPieces_suffix (count : Nat) (pieces : List Piece) :
    dropPieces count pieces <:+ pieces := by
  induction pieces generalizing count with
  | nil => cases count <;> exact List.suffix_rfl
  | cons first pieces ih =>
    cases count with
    | zero => exact List.suffix_rfl
    | succ count =>
      rw [dropPieces]
      split
      · exact (ih _).trans (List.suffix_cons first pieces)
      · exact (ih _).trans (List.suffix_cons first pieces)

namespace Spelling

/-- What is left of pieces that end with a name ends with the name, or is nothing. -/
theorem getLast?_after {spelling : Spelling} {last : Piece}
    (h : spelling.pieces.getLast? = some last) (hlast : isFiller last = false) (count : Nat) :
    (spelling.after count).pieces = [] ∨
      (spelling.after count).pieces.getLast? = some last := by
  have hsuffix {pieces : List Piece} (hpieces : pieces <:+ spelling.pieces) :
      dropTrailingFillers pieces = [] ∨
        (dropTrailingFillers pieces).getLast? = some last := by
    obtain ⟨front, hfront⟩ := hpieces
    by_cases hnone : pieces = []
    · rw [hnone]
      exact Or.inl rfl
    · rw [← hfront, List.getLast?_append, List.getLast?_eq_some_getLast hnone,
        Option.some_or, ← List.getLast?_eq_some_getLast hnone] at h
      rw [dropTrailingFillers_of_getLast? h hlast]
      exact Or.inr h
  cases count with
  | zero =>
    obtain ⟨rooted, pieces⟩ := spelling
    rw [after, trimmed]
    cases rooted with
    | true => exact hsuffix List.suffix_rfl
    | false =>
      cases pieces with
      | nil => exact Or.inl rfl
      | cons first pieces =>
        have hkept : dropTrailingFillers pieces = pieces := by
          cases pieces with
          | nil => rfl
          | cons next pieces =>
            rw [List.getLast?_cons_cons] at h
            exact dropTrailingFillers_of_getLast? h hlast
        rw [if_neg Bool.false_ne_true]
        dsimp only
        rw [hkept]
        exact Or.inr h
  | succ count =>
    have hbody : (if spelling.rooted then spelling.pieces else spelling.pieces.tail)
        <:+ spelling.pieces := by
      split
      · exact List.suffix_rfl
      · exact List.tail_suffix _
    exact hsuffix (((List.dropWhile_suffix _).trans (dropPieces_suffix count _)).trans hbody)

end Spelling

namespace Path

/-- A path that ends with a name does so relative to a base, too, unless the base names the same:
then nothing is left. -/
theorem Ends.relativeTo {path : Path} {name : Piece} (h : path.Ends name) (base : Path) :
    (path.components = base.components ∧ (path.relativeTo base).text = "") ∨
      (path.components ≠ base.components ∧ (path.relativeTo base).Ends name) := by
  by_cases hbelow : base.components <+: path.components
  · have hproper := Spelling.proper_after path.proper_spelling base.components.length
    have hlast := Spelling.getLast?_after h.last h.not_isFiller base.components.length
    have hcomponents : (path.relativeTo base).components.getLast?
        = if path.components.length ≤ base.components.length then none
          else some (.name name) := by
      rw [components_relativeTo hbelow, List.getLast?_drop, h.getLast?_components]
    rw [Path.relativeTo, relativeTo?, if_pos (startsWith_iff.2 hbelow), Option.getD_some]
      at hcomponents ⊢
    generalize path.spelling.after base.components.length = rest at hproper hlast hcomponents ⊢
    rcases hlast with hnone | hname
    · rw [(components_ofSpelling hproper).2] at hcomponents
      obtain ⟨rooted, pieces⟩ := rest
      cases hnone
      cases rooted with
      | true =>
        split at hcomponents
        · cases hcomponents
        · cases hcomponents
      | false =>
        split at hcomponents
        · rename_i hlength
          exact Or.inl ⟨(hbelow.eq_of_length_le hlength).symm, rfl⟩
        · cases hcomponents
    · have hne : rest.pieces ≠ [] := by
        intro hnone
        rw [hnone] at hname
        cases hname
      have hspelling : (ofSpelling rest).spelling = rest := by
        rw [spelling, ofSpelling, String.toList_ofList, Spelling.ofText_text hproper hne]
      have hends : (ofSpelling rest).Ends name := ⟨by rw [hspelling, hname], h.names⟩
      refine Or.inr ⟨fun hsame => ?_, hends⟩
      rw [hends.getLast?_components, hsame, if_pos (Nat.le_refl _)] at hcomponents
      cases hcomponents
  · refine Or.inr ⟨fun hsame => hbelow (hsame ▸ List.prefix_rfl), ?_⟩
    rw [Path.relativeTo_of_not_prefix hbelow]
    exact h

end Path

end FeatureDigest
