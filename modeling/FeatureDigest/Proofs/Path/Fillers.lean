import Mathlib.Logic.Relation
import FeatureDigest.Proofs.Path.Relative

/-!
# Paths apart from their fillers

One path can be spelled in many ways: slashes are doubled, `.` stands between two of them or in
front, and a slash ends the path.  What all these spellings name is the same list of components
(`Path.bare`).  The components of a path are these, after the `.` that it may start with
(`Path.components_cases`).

Two paths have the same list exactly when fillers can be put in and left out until one becomes the
other (`Path.respells_iff`): every text loses its fillers one by one until only what it names is
written (`eqvGen_bareText`).
-/

set_option autoImplicit false

namespace FeatureDigest

open Component (ofPiece? piece?)
open Relation (EqvGen)

/-! ## What a text names -/

/-- What a text names: the top when it starts with a slash, and what stands between its slashes.
A `.` names nothing, in front as elsewhere. -/
def bareComponents (text : List Char) : List Component :=
  (if text.head? = some '/' then [.top] else []) ++ (splitSlash text).filterMap ofPiece?

/-- What a path names, however it is spelled. -/
def Path.bare (path : Path) : List Component := bareComponents path.text.toList

theorem bareComponents_of_rooted (body : List Char) :
    bareComponents ('/' :: body) = .top :: (splitSlash body).filterMap ofPiece? := by
  rw [bareComponents, if_pos List.head?_cons, splitSlash, if_pos rfl,
    List.filterMap_cons_none (Component.ofPiece?_filler (by decide)), List.singleton_append]

theorem bareComponents_of_relative {text : List Char} (h : text.head? ≠ some '/') :
    bareComponents text = (splitSlash text).filterMap ofPiece? := by
  rw [bareComponents, if_neg h, List.nil_append]

theorem Component.ofPiece?_eq_none_iff {piece : Piece} :
    ofPiece? piece = none ↔ isFiller piece = true := by
  constructor
  · intro hnone
    cases hfiller : isFiller piece with
    | true => rfl
    | false =>
      obtain ⟨component, hcomponent, -⟩ := Component.exists_ofPiece? hfiller
      rw [hnone] at hcomponent
      cases hcomponent
  · exact Component.ofPiece?_filler

theorem Component.ne_of_mem {component : Component} {pieces : List Piece}
    (h : component ∈ pieces.filterMap ofPiece?) : component ≠ .top ∧ component ≠ .here := by
  obtain ⟨piece, -, hpiece⟩ := List.mem_filterMap.1 h
  have hspelled := Component.piece?_of_ofPiece? hpiece
  constructor
  · rintro rfl
    cases hspelled
  · rintro rfl
    cases hspelled

namespace Path

theorem here_not_mem_bare (path : Path) : Component.here ∉ path.bare := by
  intro hmem
  rcases List.mem_append.1 hmem with htop | hrest
  · split at htop
    · cases List.mem_singleton.1 htop
    · cases htop
  · exact (Component.ne_of_mem hrest).2 rfl

/-- The components of a path are what it names, after the `.` that it may start with. -/
theorem components_cases (path : Path) :
    path.components = path.bare ∨ path.components = .here :: path.bare := by
  rw [components, spelling, bare]
  generalize path.text.toList = text
  by_cases hroot : text.head? = some '/'
  · obtain ⟨body, rfl⟩ := List.head?_eq_some_iff.1 hroot
    rw [bareComponents_of_rooted]
    exact Or.inl rfl
  · rw [Spelling.ofText_of_relative hroot, bareComponents_of_relative hroot]
    obtain ⟨first, pieces, hsplit⟩ := List.exists_cons_of_ne_nil (splitSlash_ne_nil text)
    rw [hsplit, Spelling.components, if_neg Bool.false_ne_true]
    dsimp only
    by_cases hdot : first = ['.']
    · rw [hdot, List.filterMap_cons_none (Component.ofPiece?_filler (by decide))]
      exact Or.inr rfl
    · rw [Component.ofFirstPiece?_of_ne hdot, List.filterMap_cons]
      cases ofPiece? first <;> exact Or.inl rfl

end Path

/-! ## Fillers put in and left out -/

/-- The second text is the first one less a filler. -/
inductive LosesFiller : List Char → List Char → Prop
  | front {text : List Char} (relative : text.head? ≠ some '/') :
      LosesFiller ('.' :: '/' :: text) text
  | slash (before after : List Char) :
      LosesFiller (before ++ '/' :: '/' :: after) (before ++ '/' :: after)
  | dot (before after : List Char) :
      LosesFiller (before ++ '/' :: '.' :: '/' :: after) (before ++ '/' :: after)
  | ending {text : List Char} (written : text ≠ []) : LosesFiller (text ++ ['/']) text

/-- Fillers can be put in and left out until one path becomes the other. -/
def Path.Respells (path other : Path) : Prop :=
  EqvGen LosesFiller path.text.toList other.text.toList

theorem head?_append_slash (before after other : List Char) :
    (before ++ '/' :: after).head? = (before ++ '/' :: other).head? := by
  cases before <;> rfl

/-- A filler names nothing. -/
theorem LosesFiller.bareComponents {first second : List Char} (h : LosesFiller first second) :
    bareComponents first = bareComponents second := by
  have hslash : ofPiece? [] = none := by decide
  have hdot : ofPiece? ['.'] = none := by decide
  cases h with
  | front relative =>
    have hsplit : splitSlash ('.' :: '/' :: second) = ['.'] :: splitSlash second :=
      splitSlash_append_slash second (by decide : '/' ∉ ['.'])
    have hhead : ('.' :: '/' :: second).head? ≠ some '/' := by simp
    rw [bareComponents_of_relative hhead, bareComponents_of_relative relative, hsplit,
      List.filterMap_cons_none hdot]
  | slash before after =>
    have hsplit : splitSlash ('/' :: after) = [] :: splitSlash after := by
      rw [splitSlash, if_pos rfl]
    rw [FeatureDigest.bareComponents, FeatureDigest.bareComponents,
      head?_append_slash before _ after, splitSlash_append, splitSlash_append, hsplit,
      List.filterMap_append, List.filterMap_append, List.filterMap_cons_none hslash]
  | dot before after =>
    have hsplit : splitSlash ('.' :: '/' :: after) = ['.'] :: splitSlash after :=
      splitSlash_append_slash after (by decide : '/' ∉ ['.'])
    rw [FeatureDigest.bareComponents, FeatureDigest.bareComponents,
      head?_append_slash before _ after, splitSlash_append, splitSlash_append, hsplit,
      List.filterMap_append, List.filterMap_append, List.filterMap_cons_none hdot]
  | ending written =>
    have hhead : (second ++ ['/']).head? = second.head? := by
      obtain ⟨c, rest, rfl⟩ := List.exists_cons_of_ne_nil written
      rfl
    rw [FeatureDigest.bareComponents, FeatureDigest.bareComponents, hhead, splitSlash_append,
      List.filterMap_append, splitSlash, List.filterMap_cons_none hslash, List.filterMap_nil,
      List.append_nil]

theorem bareComponents_of_eqvGen {first second : List Char}
    (h : EqvGen LosesFiller first second) : bareComponents first = bareComponents second := by
  induction h with
  | rel first second hloses => exact hloses.bareComponents
  | refl text => rfl
  | symm first second _ ih => exact ih.symm
  | trans first second third _ _ ihfirst ihsecond => exact ihfirst.trans ihsecond

/-! ## Texts without fillers -/

/-- The text that names the components and has no filler. -/
def bareText (components : List Component) : List Char :=
  (if components.head? = some .top then ['/'] else [])
    ++ joinSlash (components.filterMap piece?)

/-- A slash with no piece after it is left out. -/
theorem eqvGen_joinSlash (front : List Char) (piece : Piece) (pieces : List Piece)
    (h : front ++ piece ≠ []) :
    EqvGen LosesFiller (front ++ piece ++ '/' :: joinSlash pieces)
      (front ++ joinSlash (piece :: pieces)) := by
  by_cases hnone : pieces = []
  · rw [hnone]
    exact .rel _ _ (.ending h)
  · rw [joinSlash_cons piece hnone, List.append_assoc]
    exact .refl _

/-- A `.` at the end is left out between the slash before it and one put behind it. -/
theorem eqvGen_dot (before : List Char) :
    EqvGen LosesFiller (before ++ ['/', '.']) (before ++ ['/']) := by
  have hending : LosesFiller (before ++ ['/', '.'] ++ ['/']) (before ++ ['/', '.']) :=
    .ending (List.append_ne_nil_of_right_ne_nil before (List.cons_ne_nil '/' ['.']))
  have hdot : LosesFiller (before ++ ['/', '.', '/']) (before ++ ['/']) := .dot before []
  rw [List.append_assoc] at hending
  exact ((EqvGen.rel _ _ hending).symm _ _).trans _ _ _ (.rel _ _ hdot)

/-- Pieces after a slash lose their fillers. -/
theorem eqvGen_filter (before : List Char) (pieces : List Piece) :
    EqvGen LosesFiller (before ++ '/' :: joinSlash pieces)
      (before ++ '/' :: joinSlash (pieces.filter fun piece => !isFiller piece)) := by
  induction pieces generalizing before with
  | nil => exact .refl _
  | cons piece pieces ih =>
    cases hpiece : isFiller piece with
    | false =>
      rw [List.filter_cons_of_pos (by rw [hpiece]; rfl)]
      by_cases hnone : pieces = []
      · rw [hnone]
        exact .refl _
      · have hrest := ih (before ++ ['/'] ++ piece)
        have hkept := eqvGen_joinSlash (before ++ ['/']) piece
          (pieces.filter fun piece => !isFiller piece) (by simp)
        have hfront : before ++ '/' :: joinSlash (piece :: pieces)
            = before ++ ['/'] ++ piece ++ '/' :: joinSlash pieces := by
          rw [joinSlash_cons piece hnone]
          simp
        rw [List.append_assoc before ['/'] (joinSlash _)] at hkept
        rw [hfront]
        exact hrest.trans _ _ _ hkept
    | true =>
      rw [List.filter_cons_of_neg (by rw [hpiece]; exact Bool.false_ne_true)]
      by_cases hnone : pieces = []
      · rw [hnone]
        rcases isFiller_iff.1 hpiece with rfl | rfl
        · exact .refl _
        · exact eqvGen_dot before
      · rw [joinSlash_cons piece hnone]
        refine EqvGen.trans _ _ _ ?_ (ih before)
        rcases isFiller_iff.1 hpiece with rfl | rfl
        · exact .rel _ _ (.slash before _)
        · exact .rel _ _ (.dot before _)

theorem head?_joinSlash_filter {pieces : List Piece} (hslash : ∀ piece ∈ pieces, '/' ∉ piece) :
    (joinSlash (pieces.filter fun piece => !isFiller piece)).head? ≠ some '/' := by
  cases hkept : pieces.filter fun piece => !isFiller piece with
  | nil => exact nofun
  | cons piece kept =>
    have hmem : piece ∈ pieces.filter fun piece => !isFiller piece := by
      rw [hkept]
      exact List.mem_cons_self
    obtain ⟨hpiece, hfiller⟩ := List.mem_filter.1 hmem
    have hne : piece ≠ [] := by
      rintro rfl
      cases hfiller
    obtain ⟨c, rest, rfl⟩ := List.exists_cons_of_ne_nil hne
    have hhead : (joinSlash ((c :: rest) :: kept)).head? = some c := by
      by_cases hnone : kept = []
      · rw [hnone]
        rfl
      · rw [joinSlash_cons _ hnone]
        rfl
    rw [hhead]
    rintro ⟨⟩
    exact hslash _ hpiece List.mem_cons_self

/-- The text of a relative path loses the filler that it may start with. -/
theorem eqvGen_relative {first : Piece} {pieces : List Piece}
    (h : (joinSlash (first :: pieces)).head? ≠ some '/')
    (hslash : ∀ piece ∈ pieces, '/' ∉ piece) :
    EqvGen LosesFiller (joinSlash (first :: pieces))
      (joinSlash ((first :: pieces).filter fun piece => !isFiller piece)) := by
  by_cases hnone : pieces = []
  · rw [hnone] at h ⊢
    by_cases hdot : first = ['.']
    · -- A lone `.` is left out with a slash put behind it.
      rw [hdot]
      have hending : LosesFiller (['.'] ++ ['/']) ['.'] := .ending (List.cons_ne_nil '.' [])
      exact ((EqvGen.rel _ _ hending).symm _ _).trans _ _ _ (.rel _ _ (.front (by decide)))
    · by_cases hempty : first = []
      · rw [hempty]
        exact .refl _
      · rw [List.filter_cons_of_pos (by rw [isFiller_eq_false hempty hdot]; rfl)]
        exact .refl _
  · rw [joinSlash_cons first hnone] at h ⊢
    have hrest := eqvGen_filter first pieces
    have hempty : first ≠ [] := by
      rintro rfl
      exact h rfl
    by_cases hdot : first = ['.']
    · rw [hdot] at hrest ⊢
      exact hrest.trans _ _ _ (.rel _ _ (.front (head?_joinSlash_filter hslash)))
    · rw [List.filter_cons_of_pos (by rw [isFiller_eq_false hempty hdot]; rfl)]
      exact hrest.trans _ _ _ (eqvGen_joinSlash [] first _ hempty)

/-- Fillers can be left out until only what a text names is written. -/
theorem eqvGen_bareText (text : List Char) :
    EqvGen LosesFiller text (bareText (bareComponents text)) := by
  by_cases hroot : text.head? = some '/'
  · obtain ⟨body, rfl⟩ := List.head?_eq_some_iff.1 hroot
    have hbody := eqvGen_filter [] (splitSlash body)
    rw [joinSlash_splitSlash, ← Component.filterMap_piece?] at hbody
    rw [bareComponents_of_rooted]
    exact hbody
  · have htop : ((splitSlash text).filterMap ofPiece?).head? ≠ some .top :=
      fun htop => (Component.ne_of_mem (List.mem_of_head? htop)).1 rfl
    have hslash : ∀ piece ∈ splitSlash text, '/' ∉ piece :=
      fun piece hpiece => not_mem_of_mem_splitSlash hpiece
    have hjoin := joinSlash_splitSlash text
    rw [bareComponents_of_relative hroot, bareText, if_neg htop, Component.filterMap_piece?,
      List.nil_append]
    obtain ⟨first, pieces, hsplit⟩ := List.exists_cons_of_ne_nil (splitSlash_ne_nil text)
    rw [hsplit] at hslash hjoin ⊢
    rw [← hjoin] at hroot
    have hpieces := eqvGen_relative hroot fun piece hpiece =>
      hslash piece (List.mem_cons_of_mem first hpiece)
    rwa [hjoin] at hpieces

/-- Two paths name the same exactly when fillers put in and left out lead from one to the other. -/
theorem Path.respells_iff {path other : Path} :
    path.Respells other ↔ path.bare = other.bare := by
  constructor
  · exact bareComponents_of_eqvGen
  · intro h
    have hpath := eqvGen_bareText path.text.toList
    have hother := eqvGen_bareText other.text.toList
    unfold Path.bare at h
    rw [h] at hpath
    exact hpath.trans _ _ _ (hother.symm _ _)

end FeatureDigest
