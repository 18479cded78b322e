import FeatureDigest.Path.Ancestors
import FeatureDigest.Path.Relative
import FeatureDigest.Proofs.Path.Pieces

/-!
# Components of paths

What the operations on paths do to the components that a path names.  These depend on the
pieces that are not empty only (`Path.components_eq`).  A joined path has one more
(`Path.components_join`), a path relative to a base has those after the base
(`Path.components_relativeTo`), and a parent has all but the last one
(`Path.components_of_parent?`), so that the ancestors of a path are the path and those of its
parent (`Path.ancestors_eq`).
-/

set_option autoImplicit false

namespace FeatureDigest

/-! ## Pieces and components -/

theorem isFiller_iff {piece : Piece} : isFiller piece = true ↔ piece = [] ∨ piece = ['.'] := by
  rw [isFiller, Bool.or_eq_true, beq_iff_eq, beq_iff_eq]

theorem isFiller_eq_false {piece : Piece} (hempty : piece ≠ []) (hdot : piece ≠ ['.']) :
    isFiller piece = false := by
  rw [← Bool.not_eq_true, isFiller_iff, not_or]
  exact ⟨hempty, hdot⟩

namespace Component

/-- The piece that a component is spelled with, unless it only says where a path starts. -/
def piece? : Component → Option Piece
  | .top => none
  | .here => none
  | .up => some ['.', '.']
  | .name piece => some piece

theorem ofPiece?_filler {piece : Piece} (h : isFiller piece = true) : ofPiece? piece = none := by
  rw [ofPiece?, if_pos h]

theorem exists_ofPiece? {piece : Piece} (h : isFiller piece = false) :
    ∃ component, ofPiece? piece = some component ∧ component.piece? = some piece := by
  rw [ofPiece?, if_neg (by rw [h]; exact Bool.false_ne_true)]
  split
  · rename_i hup
    exact ⟨.up, rfl, by rw [hup]; rfl⟩
  · exact ⟨.name piece, rfl, rfl⟩

theorem ofFirstPiece?_of_ne {piece : Piece} (h : piece ≠ ['.']) :
    ofFirstPiece? piece = ofPiece? piece := by
  rw [ofFirstPiece?, if_neg h]

theorem exists_ofFirstPiece? {piece : Piece} (h : piece ≠ []) :
    ∃ component, ofFirstPiece? piece = some component := by
  by_cases hdot : piece = ['.']
  · exact ⟨.here, by rw [ofFirstPiece?, if_pos hdot]⟩
  · obtain ⟨component, hcomponent, _⟩ := exists_ofPiece? (isFiller_eq_false h hdot)
    exact ⟨component, by rw [ofFirstPiece?_of_ne hdot, hcomponent]⟩

theorem ofPiece?_name (name : FileName) : ofPiece? name.piece = some (.name name.piece) := by
  rw [ofPiece?, name.not_isFiller, if_neg Bool.false_ne_true, if_neg name.ne_up]

theorem ofFirstPiece?_name (name : FileName) :
    ofFirstPiece? name.piece = some (.name name.piece) := by
  have hdot : name.piece ≠ ['.'] := by
    intro hdot
    have hfiller := name.not_isFiller
    rw [hdot] at hfiller
    cases hfiller
  rw [ofFirstPiece?_of_ne hdot, ofPiece?_name]

theorem filterMap_ofPiece?_filter (pieces : List Piece) :
    (pieces.filter fun piece => piece ≠ []).filterMap ofPiece? = pieces.filterMap ofPiece? := by
  rw [List.filterMap_filter]
  congr 1
  funext piece
  by_cases hempty : piece = []
  · rw [hempty, ofPiece?_filler (by decide)]
    rfl
  · simp [hempty]

/-- Pieces are told by what they stand for, but for the fillers. -/
theorem filterMap_piece? (pieces : List Piece) :
    (pieces.filterMap ofPiece?).filterMap piece?
      = pieces.filter fun piece => !isFiller piece := by
  induction pieces with
  | nil => rfl
  | cons first pieces ih =>
    cases hfirst : isFiller first with
    | true =>
      rw [List.filterMap_cons_none (ofPiece?_filler hfirst), ih,
        List.filter_cons_of_neg (by simp [hfirst])]
    | false =>
      obtain ⟨component, hcomponent, hpiece⟩ := exists_ofPiece? hfirst
      rw [List.filterMap_cons_some hcomponent, List.filterMap_cons_some hpiece, ih,
        List.filter_cons_of_pos (by simp [hfirst])]

end Component

open Component (ofPiece? ofFirstPiece?)

/-- The components of the names that lead to a place. -/
def Place.components (place : Place) : List Component :=
  place.map fun name => .name name.piece

theorem Place.components_append (place more : Place) :
    (place ++ more).components = place.components ++ more.components :=
  List.map_append

theorem Place.filterMap_ofPiece? (place : Place) :
    place.pieces.filterMap ofPiece? = place.components := by
  rw [Place.pieces, List.filterMap_map, Place.components, ← List.filterMap_eq_map]
  congr 1
  funext name
  exact Component.ofPiece?_name name

theorem Place.filterMap_piece? (place : Place) :
    place.components.filterMap Component.piece? = place.pieces := by
  rw [Place.components, List.filterMap_map, Place.pieces, ← List.filterMap_eq_map]
  rfl

/-! ## Fillers at the ends -/

theorem mem_of_mem_dropTrailingFillers {piece : Piece} {pieces : List Piece}
    (h : piece ∈ dropTrailingFillers pieces) : piece ∈ pieces := by
  induction pieces with
  | nil => cases h
  | cons first pieces ih =>
    rw [dropTrailingFillers] at h
    split at h
    · split at h
      · cases h
      · rw [List.mem_singleton.1 h]
        exact List.mem_cons_self
    · rcases List.mem_cons.1 h with rfl | h
      · exact List.mem_cons_self
      · exact List.mem_cons_of_mem first (ih h)

theorem mem_of_mem_dropPieces {piece : Piece} {count : Nat} {pieces : List Piece}
    (h : piece ∈ dropPieces count pieces) : piece ∈ pieces := by
  induction pieces generalizing count with
  | nil => cases count <;> cases h
  | cons first pieces ih =>
    cases count with
    | zero => exact h
    | succ count =>
      rw [dropPieces] at h
      split at h
      · exact List.mem_cons_of_mem first (ih h)
      · exact List.mem_cons_of_mem first (ih h)

theorem dropTrailingFillers_cons {piece : Piece} (h : isFiller piece = false)
    (pieces : List Piece) :
    dropTrailingFillers (piece :: pieces) = piece :: dropTrailingFillers pieces := by
  rw [dropTrailingFillers]
  split
  · rename_i hnone
    rw [h, if_neg Bool.false_ne_true, hnone]
  · rfl

theorem dropTrailingFillers_pieces (place : Place) :
    dropTrailingFillers place.pieces = place.pieces := by
  induction place with
  | nil => rfl
  | cons name place ih =>
    rw [Place.pieces, List.map_cons, dropTrailingFillers_cons name.not_isFiller, ← Place.pieces, ih]

/-- What is dropped at the end are fillers, and what is kept ends with no filler. -/
theorem exists_dropTrailingFillers (pieces : List Piece) :
    (∃ fillers, pieces = dropTrailingFillers pieces ++ fillers ∧
        ∀ piece ∈ fillers, isFiller piece = true) ∧
      ∀ piece, (dropTrailingFillers pieces).getLast? = some piece → isFiller piece = false := by
  induction pieces with
  | nil => exact ⟨⟨[], rfl, nofun⟩, nofun⟩
  | cons first pieces ih =>
    obtain ⟨⟨fillers, hpieces, hfillers⟩, hlast⟩ := ih
    rw [dropTrailingFillers]
    split
    · rename_i hnone
      rw [hnone, List.nil_append] at hpieces
      cases hfirst : isFiller first with
      | true =>
        refine ⟨⟨first :: pieces, by simp, ?_⟩, by simp⟩
        intro piece hpiece
        rcases List.mem_cons.1 hpiece with rfl | hpiece
        · exact hfirst
        · exact hfillers piece (hpieces ▸ hpiece)
      | false =>
        rw [if_neg Bool.false_ne_true]
        refine ⟨⟨pieces, rfl, hpieces ▸ hfillers⟩, ?_⟩
        intro piece hpiece
        cases hpiece
        exact hfirst
    · rename_i hkept
      refine ⟨⟨fillers, ?_, hfillers⟩, ?_⟩
      · rw [List.cons_append, ← hpieces]
      · intro piece hpiece
        obtain ⟨kept, rest, heq⟩ := List.exists_cons_of_ne_nil hkept
        rw [heq, List.getLast?_cons_cons, ← heq] at hpiece
        exact hlast piece hpiece

theorem filterMap_ofPiece?_fillers {fillers : List Piece}
    (h : ∀ piece ∈ fillers, isFiller piece = true) : fillers.filterMap ofPiece? = [] := by
  apply List.filterMap_eq_nil_iff.2
  intro piece hpiece
  exact Component.ofPiece?_filler (h piece hpiece)

theorem filterMap_dropTrailingFillers (pieces : List Piece) :
    (dropTrailingFillers pieces).filterMap ofPiece? = pieces.filterMap ofPiece? := by
  obtain ⟨⟨fillers, hpieces, hfillers⟩, _⟩ := exists_dropTrailingFillers pieces
  have hwhole := congrArg (List.filterMap ofPiece?) hpieces
  rw [List.filterMap_append, filterMap_ofPiece?_fillers hfillers, List.append_nil] at hwhole
  exact hwhole.symm

theorem filterMap_dropPieces (count : Nat) (pieces : List Piece) :
    (dropPieces count pieces).filterMap ofPiece? = (pieces.filterMap ofPiece?).drop count := by
  induction pieces generalizing count with
  | nil => cases count <;> rfl
  | cons first pieces ih =>
    cases count with
    | zero => rfl
    | succ count =>
      rw [dropPieces]
      cases hfirst : isFiller first with
      | true =>
        rw [if_pos rfl, ih, List.filterMap_cons_none (Component.ofPiece?_filler hfirst)]
      | false =>
        obtain ⟨component, hcomponent, _⟩ := Component.exists_ofPiece? hfirst
        rw [if_neg Bool.false_ne_true, ih, List.filterMap_cons_some hcomponent,
          List.drop_succ_cons]

/-- Leading fillers are dropped up to a piece that is none. -/
theorem isFiller_of_dropWhile {pieces rest : List Piece} {piece : Piece}
    (h : pieces.dropWhile isFiller = piece :: rest) : isFiller piece = false := by
  have hhead := List.head?_dropWhile_not isFiller pieces
  rw [h] at hhead
  simpa using hhead

theorem filterMap_dropWhile_isFiller (pieces : List Piece) :
    (pieces.dropWhile isFiller).filterMap ofPiece? = pieces.filterMap ofPiece? := by
  induction pieces with
  | nil => rfl
  | cons first pieces ih =>
    cases hfirst : isFiller first with
    | true =>
      rw [List.dropWhile_cons_of_pos hfirst, ih,
        List.filterMap_cons_none (Component.ofPiece?_filler hfirst)]
    | false => rw [List.dropWhile_cons_of_neg (by rw [hfirst]; exact Bool.false_ne_true)]

/-! ## Spellings -/

namespace Spelling

theorem mem_of_mem_trimmed {spelling : Spelling} {piece : Piece}
    (h : piece ∈ spelling.trimmed.pieces) : piece ∈ spelling.pieces := by
  unfold trimmed at h
  split at h
  · exact mem_of_mem_dropTrailingFillers h
  · split at h
    · cases h
    · rename_i first pieces hpieces
      rw [hpieces]
      rcases List.mem_cons.1 h with rfl | h
      · exact List.mem_cons_self
      · exact List.mem_cons_of_mem first (mem_of_mem_dropTrailingFillers h)

theorem mem_of_mem_after {spelling : Spelling} {count : Nat} {piece : Piece}
    (h : piece ∈ (spelling.after count).pieces) : piece ∈ spelling.pieces := by
  cases count with
  | zero => exact mem_of_mem_trimmed h
  | succ count =>
    have hbody := mem_of_mem_dropPieces
      ((List.dropWhile_sublist _).mem (mem_of_mem_dropTrailingFillers h))
    split at hbody
    · exact hbody
    · exact List.mem_of_mem_tail hbody

/-- A spelling that its own text gives back: no piece has a slash, and a relative one does not
start with an empty piece, unless it has no other. -/
structure Proper (spelling : Spelling) : Prop where
  slash_not_mem : ∀ piece ∈ spelling.pieces, '/' ∉ piece
  first_ne_nil : spelling.rooted = false → ∀ pieces, spelling.pieces = [] :: pieces → pieces = []

theorem proper_ofText (text : List Char) : (ofText text).Proper := by
  cases text with
  | nil => exact ⟨by decide, fun _ pieces h => by cases h; rfl⟩
  | cons c rest =>
    by_cases hc : c = '/'
    · rw [hc]
      exact ⟨fun piece hpiece => not_mem_of_mem_splitSlash hpiece, nofun⟩
    · rw [ofText_of_relative (by simpa using hc)]
      refine ⟨fun piece hpiece => not_mem_of_mem_splitSlash hpiece, ?_⟩
      intro _ pieces hpieces
      obtain ⟨first, more, hsplit⟩ := List.exists_cons_of_ne_nil (splitSlash_ne_nil rest)
      simp only [splitSlash, hc, if_false, hsplit] at hpieces
      cases hpieces

theorem ofText_text {spelling : Spelling} (h : spelling.Proper) (hne : spelling.pieces ≠ []) :
    ofText spelling.text = spelling := by
  obtain ⟨rooted, pieces⟩ := spelling
  have hsplit := splitSlash_joinSlash hne h.slash_not_mem
  cases rooted with
  | true => simp only [text, if_true, ofText, hsplit]
  | false =>
    rw [text, if_neg Bool.false_ne_true]
    unfold ofText
    split
    · rename_i body hbody
      -- A text that starts with a slash has an empty first piece and another one.
      rw [hbody, splitSlash, if_pos rfl] at hsplit
      have hnone := h.first_ne_nil rfl (splitSlash body) hsplit.symm
      exact absurd hnone (splitSlash_ne_nil body)
    · rw [hsplit]

theorem components_ofText_text {spelling : Spelling} (h : spelling.Proper) :
    (ofText spelling.text).rooted = spelling.rooted ∧
      (ofText spelling.text).components = spelling.components := by
  by_cases hne : spelling.pieces = []
  · obtain ⟨rooted, pieces⟩ := spelling
    cases hne
    cases rooted <;> exact ⟨rfl, rfl⟩
  · rw [ofText_text h hne]
    exact ⟨rfl, rfl⟩

theorem components_cons {piece : Piece} (h : isFiller piece = false) (pieces : List Piece) :
    components ⟨false, piece :: pieces⟩ = (piece :: pieces).filterMap ofPiece? := by
  have hdot : piece ≠ ['.'] := by
    rintro rfl
    cases h
  obtain ⟨component, hcomponent, _⟩ := Component.exists_ofPiece? h
  rw [components, if_neg Bool.false_ne_true, List.filterMap_cons_some hcomponent]
  simp only [Component.ofFirstPiece?_of_ne hdot, hcomponent, Option.toList_some,
    List.singleton_append]

theorem components_trimmed (spelling : Spelling) :
    spelling.trimmed.components = spelling.components := by
  obtain ⟨rooted, pieces⟩ := spelling
  cases rooted with
  | true => simp only [trimmed, components, if_true, filterMap_dropTrailingFillers]
  | false =>
    cases pieces with
    | nil => rfl
    | cons first pieces =>
      simp only [trimmed, components, Bool.false_eq_true, if_false,
        filterMap_dropTrailingFillers]

/-- What is left after some components of a spelling are the components after them. -/
theorem components_after {spelling : Spelling} (h : spelling.Proper) {count : Nat}
    (hcount : count ≤ spelling.components.length) :
    (spelling.after count).components = spelling.components.drop count := by
  cases count with
  | zero => exact spelling.components_trimmed
  | succ count =>
    have hrest (body : List Piece) :
        components ⟨false, dropTrailingFillers ((dropPieces count body).dropWhile isFiller)⟩
          = (body.filterMap ofPiece?).drop count := by
      rw [← filterMap_dropPieces, ← filterMap_dropWhile_isFiller (dropPieces count body)]
      cases hkept : (dropPieces count body).dropWhile isFiller with
      | nil => rfl
      | cons piece pieces =>
        have hpiece := isFiller_of_dropWhile hkept
        rw [dropTrailingFillers_cons hpiece, components_cons hpiece,
          ← dropTrailingFillers_cons hpiece, filterMap_dropTrailingFillers]
    obtain ⟨rooted, pieces⟩ := spelling
    cases rooted with
    | true =>
      simp only [after, if_true, hrest]
      simp only [components, if_true, List.drop_succ_cons]
    | false =>
      cases pieces with
      | nil => cases hcount
      | cons first pieces =>
        by_cases hfirst : first = []
        · rw [hfirst] at hcount h
          rw [h.first_ne_nil rfl pieces rfl] at hcount
          cases hcount
        · obtain ⟨component, hcomponent⟩ := Component.exists_ofFirstPiece? hfirst
          simp only [after, Bool.false_eq_true, if_false, List.tail_cons, hrest]
          simp only [components, Bool.false_eq_true, if_false, hcomponent, Option.toList_some,
            List.singleton_append, List.drop_succ_cons]

theorem proper_after {spelling : Spelling} (h : spelling.Proper) (count : Nat) :
    (spelling.after count).Proper := by
  refine ⟨fun piece hpiece => h.slash_not_mem piece (mem_of_mem_after hpiece), ?_⟩
  intro hrelative pieces hpieces
  cases count with
  | zero =>
    obtain ⟨rooted, others⟩ := spelling
    cases rooted with
    | true => simp only [after, trimmed, if_true, Bool.true_eq_false] at hrelative
    | false =>
      cases others with
      | nil => simp [after, trimmed] at hpieces
      | cons first rest =>
        simp only [after, trimmed, Bool.false_eq_true, if_false, List.cons.injEq] at hpieces
        have hrest := h.first_ne_nil rfl rest (by rw [hpieces.1])
        rw [← hpieces.2, hrest]
        rfl
  | succ count =>
    -- The first piece that is left is no filler.
    simp only [after] at hpieces
    generalize hleft : (dropPieces count _).dropWhile isFiller = left at hpieces
    cases left with
    | nil => cases hpieces
    | cons piece left =>
      have hpiece := isFiller_of_dropWhile hleft
      rw [dropTrailingFillers_cons hpiece, List.cons.injEq] at hpieces
      rw [hpieces.1] at hpiece
      cases hpiece

/-- The last piece that is kept stands for the last component. -/
theorem filterMap_dropLast (pieces : List Piece) :
    (dropTrailingFillers pieces).dropLast.filterMap ofPiece?
      = (pieces.filterMap ofPiece?).dropLast := by
  have hlast := (exists_dropTrailingFillers pieces).2
  rw [← filterMap_dropTrailingFillers pieces]
  generalize dropTrailingFillers pieces = kept at hlast ⊢
  rcases List.eq_nil_or_concat kept with rfl | ⟨front, last, rfl⟩
  · rfl
  · rw [List.concat_eq_append] at hlast ⊢
    obtain ⟨component, hcomponent, _⟩ :=
      Component.exists_ofPiece? (hlast last List.getLast?_concat)
    rw [List.dropLast_concat, List.filterMap_append, List.filterMap_cons_some hcomponent,
      List.filterMap_nil, List.dropLast_concat]

theorem filterMap_ne_nil {pieces : List Piece} (h : dropTrailingFillers pieces ≠ []) :
    pieces.filterMap ofPiece? ≠ [] := by
  have hlast := (exists_dropTrailingFillers pieces).2
  rw [← filterMap_dropTrailingFillers]
  generalize dropTrailingFillers pieces = kept at h hlast ⊢
  intro hnone
  have hget := List.getLast?_eq_some_getLast h
  obtain ⟨component, hcomponent, _⟩ := Component.exists_ofPiece? (hlast _ hget)
  have hmissed := List.filterMap_eq_nil_iff.1 hnone _ (List.getLast_mem h)
  rw [hmissed] at hcomponent
  cases hcomponent

/-- What a parent is spelled with, and what it names: all components but the last one. -/
theorem of_parent? {spelling parent : Spelling} (h : spelling.Proper)
    (hparent : spelling.parent? = some parent) :
    parent.rooted = spelling.rooted ∧ parent.Proper ∧
      parent.components = spelling.components.dropLast ∧ spelling.components ≠ [] := by
  obtain ⟨rooted, pieces⟩ := spelling
  have hslash (others : List Piece) (hothers : ∀ piece ∈ others, piece ∈ pieces) :
      ∀ piece ∈ dropTrailingFillers (dropTrailingFillers others).dropLast, '/' ∉ piece := by
    intro piece hpiece
    have hkept := List.dropLast_subset _ (mem_of_mem_dropTrailingFillers hpiece)
    exact h.slash_not_mem piece (hothers piece (mem_of_mem_dropTrailingFillers hkept))
  cases rooted with
  | true =>
    simp only [parent?, if_true] at hparent
    split at hparent
    · cases hparent
    · rename_i hkept
      cases hparent
      have hne : pieces.filterMap ofPiece? ≠ [] := filterMap_ne_nil hkept
      refine ⟨rfl, ⟨hslash pieces fun _ => id, nofun⟩, ?_, by simp [components]⟩
      simp only [components, if_true, filterMap_dropTrailingFillers, filterMap_dropLast,
        List.dropLast_cons_of_ne_nil hne]
  | false =>
    cases pieces with
    | nil => cases hparent
    | cons first pieces =>
      simp only [parent?, Bool.false_eq_true, if_false] at hparent
      have hfirst (hne : first ≠ []) :
          components ⟨false, first :: pieces⟩ ≠ [] ∧
            ∃ component, ofFirstPiece? first = some component := by
        obtain ⟨component, hcomponent⟩ := Component.exists_ofFirstPiece? hne
        exact ⟨by simp [components, hcomponent], component, hcomponent⟩
      split at hparent
      · rename_i hnone
        split at hparent
        · cases hparent
        · rename_i hne
          cases hparent
          obtain ⟨hcomponents, component, hcomponent⟩ := hfirst hne
          have hrest : pieces.filterMap ofPiece? = [] := by
            rw [← filterMap_dropTrailingFillers, hnone]
            rfl
          refine ⟨rfl, ⟨by decide, fun _ others hothers => by cases hothers; rfl⟩, ?_,
            hcomponents⟩
          simp only [components, Bool.false_eq_true, if_false, hcomponent, hrest]
          rfl
      · rename_i hkept
        cases hparent
        have hne : first ≠ [] := by
          rintro rfl
          rw [h.first_ne_nil rfl pieces rfl] at hkept
          exact hkept rfl
        obtain ⟨hcomponents, component, hcomponent⟩ := hfirst hne
        have hrest : pieces.filterMap ofPiece? ≠ [] := filterMap_ne_nil hkept
        refine ⟨rfl, ⟨?_, ?_⟩, ?_, hcomponents⟩
        · intro piece hpiece
          rcases List.mem_cons.1 hpiece with rfl | hpiece
          · exact h.slash_not_mem _ List.mem_cons_self
          · exact hslash pieces (fun _ => List.mem_cons_of_mem first) piece hpiece
        · intro _ others hothers
          cases hothers
          exact absurd rfl hne
        · simp only [components, Bool.false_eq_true, if_false, filterMap_dropTrailingFillers,
            filterMap_dropLast, List.dropLast_append_of_ne_nil hrest]

theorem components_of_parent?_eq_none {spelling : Spelling} (h : spelling.parent? = none) :
    spelling.components = [] ∨ spelling.components = [.top] := by
  have hnone {pieces : List Piece} (hkept : dropTrailingFillers pieces = []) :
      pieces.filterMap ofPiece? = [] := by
    rw [← filterMap_dropTrailingFillers, hkept]
    rfl
  obtain ⟨rooted, pieces⟩ := spelling
  cases rooted with
  | true =>
    simp only [parent?, if_true] at h
    split at h
    · rename_i hkept
      exact Or.inr (by simp [components, hnone hkept])
    · cases h
  | false =>
    cases pieces with
    | nil => exact Or.inl rfl
    | cons first pieces =>
      simp only [parent?, Bool.false_eq_true, if_false] at h
      split at h
      · rename_i hkept
        split at h
        · rename_i hfirst
          rw [hfirst]
          refine Or.inl ?_
          simp only [components, Bool.false_eq_true, if_false, hnone hkept, List.append_nil]
          rfl
        · cases h
      · cases h

/-- How many parents a spelling has. -/
def depth (spelling : Spelling) : Nat :=
  if spelling.rooted then spelling.components.length - 1 else spelling.components.length

theorem depth_le (spelling : Spelling) : spelling.depth ≤ spelling.pieces.length := by
  obtain ⟨rooted, pieces⟩ := spelling
  have hle (others : List Piece) : (others.filterMap ofPiece?).length ≤ others.length :=
    List.length_filterMap_le _ _
  cases rooted with
  | true => simpa [depth, components] using hle pieces
  | false =>
    cases pieces with
    | nil => exact Nat.le_refl 0
    | cons first pieces =>
      have hrest := hle pieces
      have hfirst : (ofFirstPiece? first).toList.length ≤ 1 := by
        cases ofFirstPiece? first <;> simp
      simp only [depth, components, Bool.false_eq_true, if_false, List.length_append,
        List.length_cons]
      omega

end Spelling

/-! ## Paths -/

namespace Path

theorem proper_spelling (path : Path) : path.spelling.Proper :=
  Spelling.proper_ofText path.text.toList

theorem components_ofSpelling {spelling : Spelling} (h : spelling.Proper) :
    (ofSpelling spelling).isAbsolute = spelling.rooted ∧
      (ofSpelling spelling).components = spelling.components := by
  rw [isAbsolute, Path.components, Path.spelling, ofSpelling, String.toList_ofList]
  exact Spelling.components_ofText_text h

theorem components_of_isAbsolute {path : Path} (h : path.isAbsolute = true) :
    path.components = .top :: path.spelling.pieces.filterMap Component.ofPiece? := by
  unfold isAbsolute at h
  rw [Path.components, Spelling.components, if_pos h]

/-- The components of a path depend on its pieces that are not empty, and on whether it starts
at the top. -/
theorem components_eq (path : Path) :
    path.components = Spelling.components ⟨path.isAbsolute, path.named⟩ := by
  have hproper := path.proper_spelling
  unfold Path.components isAbsolute named
  generalize path.spelling = spelling at hproper ⊢
  obtain ⟨rooted, pieces⟩ := spelling
  cases rooted with
  | true => simp only [Spelling.components, if_true, Component.filterMap_ofPiece?_filter]
  | false =>
    cases pieces with
    | nil => rfl
    | cons first pieces =>
      by_cases hfirst : first = []
      · rw [hfirst] at hproper ⊢
        rw [hproper.first_ne_nil rfl pieces rfl]
        rfl
      · rw [List.filter_cons_of_pos (by simpa using hfirst)]
        simp only [Spelling.components, Bool.false_eq_true, if_false,
          Component.filterMap_ofPiece?_filter]

/-- A joined path names one component more. -/
theorem components_join (path : Path) (name : FileName) :
    (path.join ⟨String.ofList name.piece⟩).components
      = path.components ++ [.name name.piece] := by
  rw [components_eq, components_eq path, isAbsolute_join, named_join]
  cases path.isAbsolute with
  | true =>
    simp only [Spelling.components, if_true, List.filterMap_append, List.filterMap_cons,
      List.filterMap_nil, Component.ofPiece?_name, List.cons_append]
  | false =>
    cases path.named with
    | nil =>
      simp only [Spelling.components, Bool.false_eq_true, if_false, List.nil_append,
        List.filterMap_nil, List.append_nil, Component.ofFirstPiece?_name, Option.toList_some]
    | cons first pieces =>
      simp only [Spelling.components, Bool.false_eq_true, if_false, List.cons_append,
        List.filterMap_append, List.filterMap_cons, List.filterMap_nil,
        Component.ofPiece?_name, List.append_assoc]

theorem components_under (path : Path) (names : Place) :
    (path.under names).components = path.components ++ names.components := by
  induction names generalizing path with
  | nil => rw [under_nil, Place.components, List.map_nil, List.append_nil]
  | cons name names ih =>
    rw [under_cons, ih, components_join, List.append_assoc]
    rfl

theorem components_ofNames {names : Place} (hne : names ≠ []) :
    (ofNames names).components = names.components := by
  obtain ⟨first, rest, rfl⟩ := List.exists_cons_of_ne_nil hne
  rw [Path.components, spelling_ofNames hne, Place.pieces, List.map_cons,
    Spelling.components_cons first.not_isFiller, ← List.map_cons, Place.filterMap_ofPiece?]

theorem components_ofPieces {pieces : List Piece} (hslash : ∀ piece ∈ pieces, '/' ∉ piece) :
    (ofPieces pieces).components = .top :: pieces.filterMap ofPiece? := by
  by_cases hne : pieces = []
  · rw [hne]
    decide
  · rw [components_of_isAbsolute (isAbsolute_ofPieces pieces), spelling_ofPieces hne hslash]

theorem components_ofPlace (place : Place) :
    (ofPlace place).components = .top :: place.components := by
  rw [ofPlace, components_ofPieces place.slash_not_mem, Place.filterMap_ofPiece?]

/-- The file name of a joined path is the name that was joined. -/
theorem fileName?_join (path : Path) (name : FileName) :
    (path.join ⟨String.ofList name.piece⟩).fileName? = some name.piece := by
  rw [fileName?, components_join, List.getLast?_concat]

theorem fileName?_under (path : Path) {names : Place} {name : FileName}
    (h : names.getLast? = some name) : (path.under names).fileName? = some name.piece := by
  have hlast : names.components.getLast? = some (.name name.piece) := by
    rw [Place.components, List.getLast?_map, h]
    rfl
  rw [fileName?, components_under, List.getLast?_append, hlast, Option.some_or]

theorem fileName?_ofNames {names : Place} {name : FileName}
    (h : names.getLast? = some name) : (ofNames names).fileName? = some name.piece := by
  have hne : names ≠ [] := by
    rintro rfl
    cases h
  rw [fileName?, components_ofNames hne, Place.components, List.getLast?_map, h]
  rfl

/-! ## Relative paths -/

theorem startsWith_iff {path base : Path} :
    path.startsWith base = true ↔ base.components <+: path.components :=
  List.isPrefixOf_iff_prefix

/-- The components of a path relative to a base are those that come after the base. -/
theorem components_relativeTo {path base : Path} (h : base.components <+: path.components) :
    (path.relativeTo base).components = path.components.drop base.components.length := by
  have hproper := path.proper_spelling
  rw [relativeTo, relativeTo?, if_pos (startsWith_iff.2 h), Option.getD_some,
    (components_ofSpelling (Spelling.proper_after hproper _)).2]
  exact Spelling.components_after hproper h.length_le

theorem relativeTo_of_not_prefix {path base : Path}
    (h : ¬ base.components <+: path.components) : path.relativeTo base = path := by
  rw [relativeTo, relativeTo?, if_neg (fun hstarts => h (startsWith_iff.1 hstarts)),
    Option.getD_none]

/-! ## Parents -/

/-- A parent names all components of a path but the last one. -/
theorem components_of_parent? {path parent : Path} (h : path.parent? = some parent) :
    parent.isAbsolute = path.isAbsolute ∧ parent.components = path.components.dropLast ∧
      path.components ≠ [] := by
  obtain ⟨spelling, hspelling, rfl⟩ := Option.map_eq_some_iff.1 h
  obtain ⟨hrooted, hproper, hcomponents, hne⟩ :=
    Spelling.of_parent? path.proper_spelling hspelling
  obtain ⟨habsolute, hsame⟩ := components_ofSpelling hproper
  exact ⟨habsolute.trans hrooted, hsame.trans hcomponents, hne⟩

theorem components_of_parent?_eq_none {path : Path} (h : path.parent? = none) :
    path.components = [] ∨ path.components = [.top] :=
  Spelling.components_of_parent?_eq_none (Option.map_eq_none_iff.1 h)

theorem depth_of_parent? {path parent : Path} (h : path.parent? = some parent) :
    path.spelling.depth = parent.spelling.depth + 1 := by
  obtain ⟨hrooted, hcomponents, hne⟩ := components_of_parent? h
  unfold isAbsolute at hrooted
  unfold Path.components at hcomponents hne
  have hlength := congrArg List.length hcomponents
  rw [List.length_dropLast] at hlength
  have hpositive := List.length_pos_iff.2 hne
  unfold Spelling.depth
  cases htop : path.spelling.rooted with
  | false =>
    rw [hrooted, htop, if_neg Bool.false_ne_true, if_neg Bool.false_ne_true, hlength]
    omega
  | true =>
    have hparent : 0 < parent.spelling.components.length := by
      rw [Spelling.components, hrooted, htop, if_pos rfl]
      exact Nat.succ_pos _
    rw [hrooted, htop, if_pos rfl, if_pos rfl, hlength]
    omega

theorem ancestorsWithin_depth {parents : Nat} {path : Path}
    (h : path.spelling.depth ≤ parents) :
    ancestorsWithin parents path = ancestorsWithin path.spelling.depth path := by
  have hlone (count : Nat) {path : Path} (hnone : path.parent? = none) :
      ancestorsWithin count path = [path] := by
    cases count with
    | zero => rfl
    | succ count => simp only [ancestorsWithin, hnone]
  induction parents generalizing path with
  | zero => rw [Nat.le_zero.1 h]
  | succ parents ih =>
    cases hparent : path.parent? with
    | none => rw [hlone _ hparent, hlone _ hparent]
    | some parent =>
      have hdepth := depth_of_parent? hparent
      rw [hdepth] at h ⊢
      simp only [ancestorsWithin, hparent, ih (Nat.le_of_succ_le_succ h)]

/-- The ancestors of a path are the path itself and those of its parent. -/
theorem ancestors_eq (path : Path) :
    path.ancestors = path :: (path.parent?.map ancestors).getD [] := by
  rw [ancestors, ancestorsWithin_depth path.spelling.depth_le]
  cases hparent : path.parent? with
  | none => cases path.spelling.depth <;> simp [ancestorsWithin, hparent]
  | some parent =>
    rw [depth_of_parent? hparent, Option.map_some, Option.getD_some, ancestors,
      ancestorsWithin_depth parent.spelling.depth_le]
    simp only [ancestorsWithin, hparent]

end Path

end FeatureDigest
