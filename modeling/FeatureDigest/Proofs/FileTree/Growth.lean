import FeatureDigest.Proofs.FileTree.Alike
import FeatureDigest.Proofs.FileTree.Canonical

/-!
# Trees that grow

A tree grows into another one that has all its nodes, each with the same bytes or target, and
may have more.  A path does not notice: what it leads to stays, and so does why it leads to
nothing, unless nothing was there (`Grows.advance`, `Grows.find`).  Writing a file where there
is none makes the tree gain this file and nothing else (`gains_of_write`).
-/

set_option autoImplicit false

namespace FeatureDigest

/-- Two nodes are the same but for what folders hold. -/
inductive Node.Matches : Node → Node → Prop
  | file (content : ByteArray) : Matches (.file content) (.file content)
  | folder (entries others : Entries) : Matches (.folder entries) (.folder others)
  | link (target : Path) : Matches (.link target) (.link target)

namespace Node.Matches

theorem refl (node : Node) : node.Matches node := by
  cases node with
  | file content => exact .file content
  | folder entries => exact .folder entries entries
  | link target => exact .link target

theorem trans {first second third : Node} (hfirst : first.Matches second)
    (hsecond : second.Matches third) : first.Matches third := by
  cases hfirst with
  | file content => exact hsecond
  | folder entries others =>
    cases hsecond with
    | folder _ further => exact .folder entries further
  | link target => exact hsecond

theorem kind_eq {first second : Node} (h : first.Matches second) : second.kind = first.kind := by
  cases h <;> rfl

end Node.Matches

/-! ## Pieces -/

/-- The piece cannot name an entry, and does not stand for a folder either. -/
structure Piece.Unnamed (piece : Piece) : Prop where
  not_filler : isFiller piece = false
  ne_up : piece ≠ ['.', '.']
  not_name : FileName.ofPiece? piece = none

/-- What a piece can be. -/
theorem Piece.cases (piece : Piece) :
    isFiller piece = true ∨ piece = ['.', '.'] ∨ (∃ name : FileName, piece = name.piece) ∨
      Piece.Unnamed piece := by
  cases hfiller : isFiller piece with
  | true => exact Or.inl rfl
  | false =>
    by_cases hup : piece = ['.', '.']
    · exact Or.inr (Or.inl hup)
    · cases hname : FileName.ofPiece? piece with
      | none => exact Or.inr (Or.inr (Or.inr ⟨hfiller, hup, hname⟩))
      | some name =>
        have hpiece := FileName.piece_of_ofPiece? hname
        exact Or.inr (Or.inr (Or.inl ⟨name, hpiece.symm⟩))

namespace FileTree

/-- A piece without a name fails in every folder for the same cause. -/
theorem advance_unnamed {tree : FileTree} {aim : Aim} {place : Place} {entries : Entries}
    {piece : Piece} (hat : tree.at? place = some (.folder entries)) (h : Piece.Unnamed piece)
    (pieces : List Piece) :
    tree.advance aim place (piece :: pieces) =
      if aim = .creation ∧ pieces = [[]] then .error .isFolder
      else if maxNameBytes < Text.byteCount piece then .error .nameTooLong
      else .error .notFound := by
  simp only [advance_cons, hat, h.not_filler, h.ne_up, h.not_name, Bool.false_eq_true, if_false]

/-- What the piece of a name does on the way to a file that may have to be made. -/
theorem advance_creation_name {tree : FileTree} {place : Place} {entries : Entries}
    {name : FileName} (hat : tree.at? place = some (.folder entries)) (pieces : List Piece) :
    tree.advance .creation place (name.piece :: pieces) =
      if pieces = [[]] then .error .isFolder
      else
        match Entries.find? name entries with
        | none => if pieces = [] then .ok (.place (place ++ [name])) else .error .notFound
        | some (.link target) => .ok (.link place target pieces)
        | some _ => tree.advance .creation (place ++ [name]) pieces := by
  have hlong : ¬ maxNameBytes < Text.byteCount name.piece := Nat.not_lt_of_le name.byteCount_le
  rw [advance_cons, hat]
  cases hchild : Entries.find? name entries with
  | none =>
    simp only [name.not_isFiller, name.ne_up, hlong, FileName.ofPiece?_piece, hchild,
      reduceCtorEq, Bool.false_eq_true, if_false, true_and, false_and]
  | some child =>
    cases child <;>
      simp only [name.not_isFiller, name.ne_up, hlong, FileName.ofPiece?_piece, hchild,
        reduceCtorEq, Bool.false_eq_true, if_false, true_and, false_and]

/-- The second tree has all that the first one has, in the same current folder. -/
structure Grows (first second : FileTree) : Prop where
  here : second.here = first.here
  kept : ∀ {place node}, first.at? place = some node →
    ∃ twin, second.at? place = some twin ∧ node.Matches twin

/-- The second tree has one file more than the first, at a place where the first has
nothing. -/
structure Gains (first second : FileTree) (place : Place) (content : ByteArray) : Prop
    extends first.Grows second where
  missing : first.at? place = none
  made : second.at? place = some (.file content)
  alone : ∀ other, other ≠ place → first.at? other = none → second.at? other = none

namespace Grows

theorem refl (tree : FileTree) : tree.Grows tree :=
  ⟨rfl, fun {_ node} hat => ⟨node, hat, .refl node⟩⟩

theorem trans {first second third : FileTree} (hfirst : first.Grows second)
    (hsecond : second.Grows third) : first.Grows third := by
  refine ⟨hsecond.here.trans hfirst.here, ?_⟩
  intro place node hat
  obtain ⟨twin, htwin, hmatch⟩ := hfirst.kept hat
  obtain ⟨last, hlast, honward⟩ := hsecond.kept htwin
  exact ⟨last, hlast, hmatch.trans honward⟩

variable {first second : FileTree}

theorem file (h : first.Grows second) {place : Place} {content : ByteArray}
    (hat : first.at? place = some (.file content)) :
    second.at? place = some (.file content) := by
  obtain ⟨twin, htwin, hmatch⟩ := h.kept hat
  cases hmatch
  exact htwin

theorem folder (h : first.Grows second) {place : Place} {entries : Entries}
    (hat : first.at? place = some (.folder entries)) :
    ∃ others, second.at? place = some (.folder others) := by
  obtain ⟨twin, htwin, hmatch⟩ := h.kept hat
  cases hmatch with
  | folder _ others => exact ⟨others, htwin⟩

/-- A folder keeps its entries. -/
theorem find? (h : first.Grows second) {place : Place} {entries others : Entries}
    {name : FileName} {child : Node} (hfirst : first.at? place = some (.folder entries))
    (hsecond : second.at? place = some (.folder others))
    (hchild : Entries.find? name entries = some child) :
    ∃ twin, Entries.find? name others = some twin ∧ child.Matches twin := by
  rw [← at?_child hfirst] at hchild
  obtain ⟨twin, htwin, hmatch⟩ := h.kept hchild
  rw [at?_child hsecond] at htwin
  exact ⟨twin, htwin, hmatch⟩

/-! ## Following -/

/-- Pieces are followed as before, unless they led to where nothing was. -/
theorem advance (h : first.Grows second) {aim : Aim} (haim : aim ≠ .creation) {place : Place}
    {pieces : List Piece} (hthere : first.advance aim place pieces ≠ .error .notFound) :
    second.advance aim place pieces = first.advance aim place pieces := by
  induction pieces generalizing place with
  | nil => rw [advance_nil, advance_nil]
  | cons piece pieces ih =>
    cases hfirst : first.at? place with
    | none =>
      rw [advance_cons, hfirst] at hthere
      exact absurd rfl hthere
    | some node =>
      obtain ⟨twin, hsecond, hmatch⟩ := h.kept hfirst
      cases hmatch with
      | file content => rw [advance_cons, advance_cons, hfirst, hsecond]
      | link target => rw [advance_cons, advance_cons, hfirst, hsecond]
      | folder entries others =>
        rcases piece.cases with hfiller | rfl | ⟨name, rfl⟩ | hnone
        · rw [advance_filler hfirst hfiller] at hthere ⊢
          rw [advance_filler hsecond hfiller]
          exact ih hthere
        · rw [advance_up hfirst] at hthere ⊢
          rw [advance_up hsecond]
          exact ih hthere
        · rw [advance_name hfirst haim] at hthere ⊢
          rw [advance_name hsecond haim]
          split
          · rfl
          · rename_i hnear
            rw [if_neg hnear] at hthere
            cases hchild : Entries.find? name entries with
            | none =>
              rw [hchild] at hthere
              exact absurd rfl hthere
            | some child =>
              obtain ⟨twin, htwin, hmatch⟩ := h.find? hfirst hsecond hchild
              rw [hchild] at hthere
              rw [htwin]
              cases hmatch with
              | file content => exact ih hthere
              | folder below more => exact ih hthere
              | link target => rfl
        · rw [advance_unnamed hfirst hnone, advance_unnamed hsecond hnone]

theorem follow (h : first.Grows second) {aim : Aim} (haim : aim ≠ .creation) {links : Nat}
    {place : Place} {pieces : List Piece}
    (hthere : first.follow aim links place pieces ≠ .error .notFound) :
    second.follow aim links place pieces = first.follow aim links place pieces := by
  have hadvance {links : Nat} {place : Place} {pieces : List Piece}
      (hthere : first.follow aim links place pieces ≠ .error .notFound) :
      second.advance aim place pieces = first.advance aim place pieces := by
    apply h.advance haim
    intro herror
    apply hthere
    cases links <;> simp only [FileTree.follow, herror]
  induction links generalizing place pieces with
  | zero => rw [FileTree.follow, FileTree.follow, hadvance hthere]
  | succ links ih =>
    have hsame := hadvance hthere
    rw [FileTree.follow] at hthere ⊢
    rw [FileTree.follow, hsame]
    split
    · rfl
    · rfl
    · rename_i folder target rest hstop
      simp only [hstop] at hthere
      split
      · rfl
      · rename_i next ahead hstart
        simp only [hstart] at hthere
        exact ih hthere

/-- A path leads to the same place as before and to a node like the one there, or fails for
the same cause, unless it led to where nothing was. -/
theorem find (h : first.Grows second) {aim : Aim} (haim : aim ≠ .creation) {path : Path}
    (hthere : first.find aim path ≠ .error .notFound) :
    (∃ fault, first.find aim path = .error fault ∧ second.find aim path = .error fault) ∨
      ∃ place node twin, first.find aim path = .ok (place, node) ∧
        second.find aim path = .ok (place, twin) ∧ node.Matches twin := by
  have houtset : second.outset aim path = first.outset aim path := by
    rw [outset, outset, h.here]
  have hresolve : second.resolve aim path = first.resolve aim path := by
    rw [FileTree.resolve, FileTree.resolve, houtset]
    split
    · rfl
    · rename_i place pieces hpieces
      apply h.follow haim
      intro herror
      apply hthere
      simp only [FileTree.find, FileTree.resolve, hpieces, herror]
  rw [FileTree.find] at hthere
  rw [FileTree.find, FileTree.find, hresolve]
  cases hfirst : first.resolve aim path with
  | error fault => exact Or.inl ⟨fault, rfl, rfl⟩
  | ok place =>
    simp only [hfirst] at hthere
    cases hat : first.at? place with
    | none =>
      rw [hat] at hthere
      exact absurd rfl hthere
    | some node =>
      obtain ⟨twin, htwin, hmatch⟩ := h.kept hat
      simp only [hat, htwin]
      exact Or.inr ⟨place, node, twin, rfl, rfl, hmatch⟩

theorem find_eq_ok (h : first.Grows second) {aim : Aim} (haim : aim ≠ .creation) {path : Path}
    {place : Place} {node : Node} (hfind : first.find aim path = .ok (place, node)) :
    ∃ twin, second.find aim path = .ok (place, twin) ∧ node.Matches twin := by
  have hthere : first.find aim path ≠ .error .notFound := by
    rw [hfind]
    exact nofun
  rcases h.find haim hthere with ⟨fault, hfirst, _⟩ | ⟨_, _, twin, hfirst, hsecond, hmatch⟩
  · cases hfind.symm.trans hfirst
  · cases hfind.symm.trans hfirst
    exact ⟨twin, hsecond, hmatch⟩

/-- A path leads to a file as before. -/
theorem find_file (h : first.Grows second) {aim : Aim} (haim : aim ≠ .creation) {path : Path}
    {place : Place} {content : ByteArray}
    (hfind : first.find aim path = .ok (place, .file content)) :
    second.find aim path = .ok (place, .file content) := by
  obtain ⟨twin, hsecond, hmatch⟩ := h.find_eq_ok haim hfind
  cases hmatch
  exact hsecond

theorem reaches (h : first.Grows second) {path : Path} (hreaches : first.reaches path = true) :
    second.reaches path = true := by
  obtain ⟨place, node, hfind⟩ := reaches_eq_true_iff.1 hreaches
  obtain ⟨twin, hsecond, _⟩ := h.find_eq_ok (by decide) hfind
  exact reaches_eq_true_iff.2 ⟨place, twin, hsecond⟩

/-! ## Access -/

theorem kind (h : first.Grows second) {aim : Aim} (haim : aim ≠ .creation) {path : Path}
    (hthere : first.find aim path ≠ .error .notFound) :
    ((second.find aim path).map fun found => found.2.kind)
      = (first.find aim path).map fun found => found.2.kind := by
  rcases h.find haim hthere with
    ⟨fault, hfirst, hsecond⟩ | ⟨place, node, twin, hfirst, hsecond, hmatch⟩
  · rw [hfirst, hsecond]
  · rw [hfirst, hsecond]
    exact congrArg Except.ok hmatch.kind_eq

theorem isFile (h : first.Grows second) {path : Path}
    (hthere : first.find .target path ≠ .error .notFound) :
    second.isFile path = first.isFile path := by
  rw [FileTree.isFile, FileTree.isFile, targetKind, targetKind, h.kind (by decide) hthere]

theorem canonical (h : first.Grows second) {path : Path}
    (hthere : first.find .canonical path ≠ .error .notFound) :
    second.canonical path = first.canonical path := by
  unfold FileTree.canonical
  rcases h.find (by decide) hthere with
    ⟨fault, hfirst, hsecond⟩ | ⟨place, node, twin, hfirst, hsecond, _⟩
  · rw [hfirst, hsecond]
  · rw [hfirst, hsecond]
    rfl

theorem readText (h : first.Grows second) {path : Path}
    (hthere : first.find .target path ≠ .error .notFound) :
    second.readText path = first.readText path := by
  unfold FileTree.readText
  rcases h.find (by decide) hthere with
    ⟨fault, hfirst, hsecond⟩ | ⟨place, node, twin, hfirst, hsecond, hmatch⟩
  · rw [hfirst, hsecond]
  · rw [hfirst, hsecond]
    cases hmatch <;> rfl

end Grows

/-! ## New files -/

/-- Pieces that lead to a file to be made lead there once something is there. -/
theorem Grows.advance_creation {first second : FileTree} (h : first.Grows second)
    {place : Place} {pieces : List Piece} {stop : Stop}
    (hcreation : first.advance .creation place pieces = .ok stop)
    (hmade : ∀ reached, stop = .place reached → first.at? reached = none →
      ∃ content, second.at? reached = some (.file content)) :
    second.advance .target place pieces = .ok stop := by
  induction pieces generalizing place with
  | nil => rwa [advance_nil] at hcreation ⊢
  | cons piece pieces ih =>
    cases hfirst : first.at? place with
    | none =>
      rw [advance_cons, hfirst] at hcreation
      cases hcreation
    | some node =>
      obtain ⟨twin, hsecond, hmatch⟩ := h.kept hfirst
      cases hmatch with
      | file content =>
        rw [advance_cons, hfirst] at hcreation
        cases hcreation
      | link target =>
        rw [advance_cons, hfirst] at hcreation
        cases hcreation
      | folder entries others =>
        rcases piece.cases with hfiller | rfl | ⟨name, rfl⟩ | hnone
        · rw [advance_filler hfirst hfiller] at hcreation
          rw [advance_filler hsecond hfiller]
          exact ih hcreation
        · rw [advance_up hfirst] at hcreation
          rw [advance_up hsecond]
          exact ih hcreation
        · rw [advance_name hsecond (by decide)]
          rw [advance_creation_name hfirst] at hcreation
          split at hcreation
          · cases hcreation
          · cases hchild : Entries.find? name entries with
            | none =>
              simp only [hchild] at hcreation
              split at hcreation
              · rename_i hlast
                cases hcreation
                have hnone : first.at? (place ++ [name]) = none := by
                  rw [at?_child hfirst, hchild]
                obtain ⟨content, hcontent⟩ := hmade _ rfl hnone
                rw [at?_child hsecond] at hcontent
                rw [hcontent, hlast]
                simp
              · cases hcreation
            | some child =>
              obtain ⟨twin, htwin, hmatch⟩ := h.find? hfirst hsecond hchild
              simp only [hchild] at hcreation
              rw [htwin]
              cases hmatch with
              | file content => simpa using ih hcreation
              | folder below more => simpa using ih hcreation
              | link target => simpa using hcreation
        · rw [advance_unnamed hfirst hnone] at hcreation
          split at hcreation
          · cases hcreation
          · split at hcreation <;> cases hcreation

/-- A path that can be followed to a file to be made leads there once something is there. -/
theorem Grows.follows_creation {first second : FileTree} (h : first.Grows second) {links : Nat}
    {place reached : Place} {pieces : List Piece}
    (hfollows : Follows first .creation links place pieces reached)
    (hmade : first.at? reached = none → ∃ content, second.at? reached = some (.file content)) :
    Follows second .target links place pieces reached := by
  induction hfollows with
  | place hstop =>
    apply Follows.place
    apply h.advance_creation hstop
    rintro other heq
    cases heq
    exact hmade
  | link hstop hstart _ ih =>
    refine .link (h.advance_creation hstop ?_) hstart (ih hmade)
    intro other heq
    cases heq

/-- A file is made in a folder that is there. -/
theorem advance_creation_new {tree : FileTree} {place reached : Place} {pieces : List Piece}
    (h : tree.advance .creation place pieces = .ok (.place reached))
    (hstart : (tree.at? place).isSome ∨ pieces ≠ []) (hnew : tree.at? reached = none) :
    ∃ front name entries, reached = front ++ [name] ∧
      tree.at? front = some (.folder entries) := by
  induction pieces generalizing place with
  | nil =>
    rw [advance_nil] at h
    cases h
    simp [hnew] at hstart
  | cons piece pieces ih =>
    cases hat : tree.at? place with
    | none =>
      rw [advance_cons, hat] at h
      cases h
    | some node =>
      cases node with
      | file content =>
        rw [advance_cons, hat] at h
        cases h
      | link target =>
        rw [advance_cons, hat] at h
        cases h
      | folder entries =>
        rcases piece.cases with hfiller | rfl | ⟨name, rfl⟩ | hnone
        · rw [advance_filler hat hfiller] at h
          exact ih h (Or.inl (by rw [hat]; rfl))
        · obtain ⟨above, habove⟩ := folder_dropLast hat
          rw [advance_up hat] at h
          exact ih h (Or.inl (by rw [habove]; rfl))
        · rw [advance_creation_name hat] at h
          split at h
          · cases h
          · split at h
            · split at h
              · cases h
                exact ⟨place, name, entries, rfl, hat⟩
              · cases h
            · cases h
            · rename_i child _ hchild
              have hsome : (tree.at? (place ++ [name])).isSome := by
                rw [at?_child hat, hchild]
                rfl
              exact ih h (Or.inl hsome)
        · rw [advance_unnamed hat hnone] at h
          split at h
          · cases h
          · split at h <;> cases h

theorem Follows.new {tree : FileTree} {links : Nat} {place reached : Place}
    {pieces : List Piece} (h : Follows tree .creation links place pieces reached)
    (hne : pieces ≠ []) (hnew : tree.at? reached = none) :
    ∃ front name entries, reached = front ++ [name] ∧
      tree.at? front = some (.folder entries) := by
  induction h with
  | place hstop => exact advance_creation_new hstop (Or.inr hne) hnew
  | link _ hstart _ ih => exact ih (ne_nil_of_start hstart _) hnew

end FileTree

/-- Of a node nothing is changed when a file is put where a folder has no entry, but that the
file is there. -/
theorem Node.at?_put_new (node : Node) {front : Place} {entries : Entries} {name : FileName}
    (hfront : node.at? front = some (.folder entries))
    (hnew : Entries.find? name entries = none) (content : ByteArray) {other : Place}
    (hne : other ≠ front ++ [name]) :
    (∀ held, node.at? other = some held → ∃ twin,
        (node.put (front ++ [name]) (.file content)).at? other = some twin ∧
          held.Matches twin) ∧
      (node.at? other = none → (node.put (front ++ [name]) (.file content)).at? other = none) := by
  induction front generalizing node other with
  | nil =>
    cases hfront
    cases other with
    | nil =>
      refine ⟨fun held hheld => ?_, fun hnone => ?_⟩
      · cases hheld
        exact ⟨_, rfl, .folder entries _⟩
      · cases hnone
    | cons second other =>
      have hput : ((Node.folder entries).put ([] ++ [name]) (.file content)).at?
          (second :: other) = (Node.folder entries).at? (second :: other) := by
        simp only [List.nil_append, put, at?, Node.entries, Entries.find?_insert]
        by_cases heq : name = second
        · subst heq
          have hother : other ≠ [] := by
            rintro rfl
            exact hne rfl
          obtain ⟨next, rest, rfl⟩ := List.exists_cons_of_ne_nil hother
          rw [if_pos rfl, hnew]
          rfl
        · rw [if_neg heq]
      rw [hput]
      exact ⟨fun held hheld => ⟨held, hheld, .refl held⟩, id⟩
  | cons first front ih =>
    rw [at?] at hfront
    split at hfront
    · rename_i child hchild
      cases node with
      | file bytes => cases hchild
      | link target => cases hchild
      | folder held =>
        rw [List.cons_append, put, hchild, Option.getD_some]
        cases other with
        | nil =>
          refine ⟨fun held hheld => ?_, fun hnone => ?_⟩
          · cases hheld
            exact ⟨_, rfl, .folder _ _⟩
          · cases hnone
        | cons second other =>
          simp only [at?, Node.entries, Entries.find?_insert]
          by_cases heq : first = second
          · subst heq
            have hheld : Entries.find? first held = some child := hchild
            rw [if_pos rfl, hheld]
            exact ih child hfront fun hother => hne (by rw [hother, List.cons_append])
          · rw [if_neg heq]
            exact ⟨fun held hheld => ⟨held, hheld, .refl held⟩, id⟩
    · cases hfront

namespace FileTree

/-- A tree gains the file that is put where a folder has no entry. -/
theorem gains_put {tree : FileTree} {front : Place} {entries : Entries} {name : FileName}
    (hfront : tree.at? front = some (.folder entries))
    (hnew : tree.at? (front ++ [name]) = none) (content : ByteArray) :
    tree.Gains (tree.put (front ++ [name]) (.file content)) (front ++ [name]) content := by
  have hne : front ++ [name] ≠ [] := by simp
  have hmade := tree.at?_put hne (.file content)
  have hentry : Entries.find? name entries = none := by rw [← at?_child hfront, hnew]
  have hother {other : Place} (h : other ≠ front ++ [name]) :=
    Node.at?_put_new tree.top hfront hentry content h
  refine ⟨⟨rfl, ?_⟩, hnew, hmade, ?_⟩
  · intro place node hat
    have hplace : place ≠ front ++ [name] := by
      rintro rfl
      cases hnew.symm.trans hat
    rw [tree.at?_put_eq hne]
    exact (hother hplace).1 node hat
  · intro place hplace hat
    rw [tree.at?_put_eq hne]
    exact (hother hplace).2 hat

/-- Writing to a path that leads to nothing fails, or makes a file that the path leads to. -/
theorem gains_of_write {tree after : FileTree} {path : Path} {content : ByteArray}
    (hwrite : tree.write path content = .ok after) (hnone : tree.reaches path = false) :
    ∃ place, tree.Gains after place content ∧
      after.find .target path = .ok (place, .file content) := by
  unfold write resolve at hwrite
  cases houtset : tree.outset .creation path with
  | error fault => simp [houtset] at hwrite
  | ok outset =>
    obtain ⟨first, pieces⟩ := outset
    obtain ⟨⟨hempty, hnul, hshort⟩, rfl, rfl⟩ := outset_eq_ok_iff.1 houtset
    have hfollowable : Followable .target path := ⟨hempty, hnul, fun _ => hshort (by decide)⟩
    simp only [houtset] at hwrite
    cases hfollow : tree.follow .creation maxLinks (tree.origin path) path.steps with
    | error fault => simp [hfollow] at hwrite
    | ok place =>
      simp only [hfollow] at hwrite
      have hfollows := follow_eq_ok_iff.1 hfollow
      cases hat : tree.at? place with
      | some node =>
        -- What is there already is what the path leads to.
        have hthere : Follows tree .target maxLinks (tree.origin path) path.steps place := by
          apply (Grows.refl tree).follows_creation hfollows
          rw [hat]
          exact nofun
        have hfind := find_eq_ok_iff.2 ⟨hfollowable, hthere, hat⟩
        rw [reaches_eq_true_iff.2 ⟨_, _, hfind⟩] at hnone
        cases hnone
      | none =>
        rw [hat] at hwrite
        cases hwrite
        obtain ⟨front, name, entries, rfl, hfront⟩ := hfollows.new path.steps_ne_nil hat
        have hgains := gains_put hfront hat content
        refine ⟨front ++ [name], hgains, find_eq_ok_iff.2 ⟨hfollowable, ?_, hgains.made⟩⟩
        exact hgains.follows_creation hfollows fun _ => ⟨content, hgains.made⟩

end FileTree

end FeatureDigest
