import FeatureDigest.Proofs.FileTree.Following

/-!
# Canonical and absolute paths

Two spellings of what a path leads to.  The canonical path is worked out along the way
of the path itself, and gives out only where a place on this way is too far from the top
(`canonical_cases`); followed again, it leads to the same node (`find_ofPlace`).  The
absolute path leads where the path leads as well, when it is not too long
(`find_absolute`).
-/

set_option autoImplicit false

namespace FeatureDigest

namespace FileTree

/-! ## The way of the canonical path -/

/-- The tree has a node whose canonical path is too long. -/
def HasFarNode (tree : FileTree) : Prop :=
  ∃ place, (tree.at? place).isSome ∧ maxPathBytes ≤ pathBytes place

theorem hasFarNode_of_child {tree : FileTree} {place : Place} {entries : Entries}
    {name : FileName} {child : Node} (hat : tree.at? place = some (.folder entries))
    (hchild : Entries.find? name entries = some child)
    (hfar : maxPathBytes ≤ pathBytes (place ++ [name])) : tree.HasFarNode := by
  refine ⟨place ++ [name], ?_, hfar⟩
  rw [at?_child hat, hchild]
  rfl

/-- The canonical path is worked out along the same way, or a node on it is too far. -/
theorem advance_canonical {tree : FileTree} {place : Place} {pieces : List Piece}
    {stop : Stop} (h : tree.advance .target place pieces = .ok stop) :
    tree.advance .canonical place pieces = .ok stop ∨
      (tree.advance .canonical place pieces = .error .nameTooLong ∧ tree.HasFarNode) := by
  induction pieces generalizing place with
  | nil => exact Or.inl (by rw [← h, advance_nil, advance_nil])
  | cons piece pieces ih =>
    rcases advance_target_cases h with ⟨next, hop, hnext⟩ | ⟨target, met, hstop⟩
    · cases hop with
      | stay hat hfiller =>
        rw [advance_filler hat hfiller]
        exact ih hnext
      | up hat =>
        rw [advance_up hat]
        exact ih hnext
      | @down entries name child hat hchild hkind =>
        rw [advance_name hat (by decide), hchild]
        split
        · rename_i hfar
          exact Or.inr ⟨rfl, hasFarNode_of_child hat hchild hfar.2⟩
        · cases child with
          | file content => exact ih hnext
          | folder below => exact ih hnext
          | link target => exact absurd rfl hkind
    · cases met with
      | @link entries name target hat hchild =>
        rw [advance_name hat (by decide), hchild, hstop]
        split
        · rename_i hfar
          exact Or.inr ⟨rfl, hasFarNode_of_child hat hchild hfar.2⟩
        · exact Or.inl rfl

theorem Follows.canonical {tree : FileTree} {links : Nat} {place reached : Place}
    {pieces : List Piece} (h : Follows tree .target links place pieces reached) :
    Follows tree .canonical links place pieces reached ∨
      (tree.follow .canonical links place pieces = .error .nameTooLong ∧
        tree.HasFarNode) := by
  induction h with
  | @place links place reached pieces hstop =>
    rcases advance_canonical hstop with hsame | ⟨herror, hfar⟩
    · exact Or.inl (.place hsame)
    · refine Or.inr ⟨?_, hfar⟩
      cases links <;> simp only [follow, herror]
  | link hstop hstart _ ih =>
    rcases advance_canonical hstop with hsame | ⟨herror, hfar⟩
    · rcases ih with honward | ⟨herror, hfar⟩
      · exact Or.inl (.link hsame hstart honward)
      · refine Or.inr ⟨?_, hfar⟩
        simp only [follow, hsame, hstart, herror]
    · refine Or.inr ⟨?_, hfar⟩
      simp only [follow, herror]

/-- The canonical path of what a path leads to is the one of its place, or cannot be had
because a node is too far from the top. -/
theorem canonical_cases {tree : FileTree} {path : Path} {place : Place} {node : Node}
    (h : tree.find .target path = .ok (place, node)) :
    tree.find .canonical path = .ok (place, node) ∨
      (tree.find .canonical path = .error .nameTooLong ∧ tree.HasFarNode) := by
  obtain ⟨⟨hempty, hnul, _⟩, hfollows, hat⟩ := find_eq_ok_iff.1 h
  have hfollowable : Followable .canonical path := ⟨hempty, hnul, fun haim => absurd rfl haim⟩
  rcases hfollows.canonical with hsame | ⟨herror, hfar⟩
  · exact Or.inl (find_eq_ok_iff.2 ⟨hfollowable, hsame, hat⟩)
  · have houtset : tree.outset .canonical path = .ok (tree.origin path, path.steps) :=
      outset_eq_ok_iff.2 ⟨hfollowable, rfl, rfl⟩
    refine Or.inr ⟨?_, hfar⟩
    simp only [find, resolve, houtset, herror]

theorem canonical_of_find {tree : FileTree} {path : Path} {place : Place} {node : Node}
    (h : tree.find .canonical path = .ok (place, node)) :
    tree.canonical path = .ok (Path.ofPlace place) := by
  rw [canonical, h]
  rfl

theorem canonical_of_find_eq_error {tree : FileTree} {path : Path} {fault : AccessFault}
    (h : tree.find .canonical path = .error fault) : tree.canonical path = .error fault := by
  rw [canonical, h]
  rfl

/-- What holds a node is a folder. -/
theorem folder_of_child {tree : FileTree} {place : Place} {name : FileName} {child : Node}
    (h : tree.at? (place ++ [name]) = some child) :
    ∃ entries, tree.at? place = some (.folder entries) := by
  rw [at?_append] at h
  cases hat : tree.at? place with
  | none => simp [hat] at h
  | some node =>
    cases node with
    | folder entries => exact ⟨entries, rfl⟩
    | file content => simp [hat, Node.at?, Node.entries] at h
    | link target => simp [hat, Node.at?, Node.entries] at h

/-- What holds a folder is a folder, and so is the top. -/
theorem folder_dropLast {tree : FileTree} {place : Place} {entries : Entries}
    (h : tree.at? place = some (.folder entries)) :
    ∃ above, tree.at? place.dropLast = some (.folder above) := by
  rcases List.eq_nil_or_concat place with rfl | ⟨front, name, rfl⟩
  · exact ⟨tree.entries, rfl⟩
  · rw [List.concat_eq_append] at h
    rw [List.concat_eq_append, List.dropLast_concat]
    exact folder_of_child h

/-- A file on the way of a canonical path is not too far from the top. -/
theorem pathBytes_of_advance {tree : FileTree} {place reached : Place} {pieces : List Piece}
    {content : ByteArray} (h : tree.advance .canonical place pieces = .ok (.place reached))
    (hne : pieces ≠ []) (hat : tree.at? reached = some (.file content)) :
    pathBytes reached < maxPathBytes := by
  induction pieces generalizing place with
  | nil => exact absurd rfl hne
  | cons piece pieces ih =>
    rcases advance_cons_cases (by decide) h with ⟨next, hop, hnext⟩ | ⟨_, _, hstop⟩ |
      ⟨haim, _⟩
    · cases pieces with
      | cons second pieces => exact ih hnext (by simp)
      | nil =>
        rw [advance_nil] at hnext
        cases hnext
        -- Fillers and `..` lead to folders, and the length is checked at every name.
        cases hop with
        | stay hfolder _ => rw [hat] at hfolder; cases hfolder
        | @up entries hfolder =>
          obtain ⟨below, hbelow⟩ := folder_dropLast hfolder
          rw [hat] at hbelow
          cases hbelow
        | @down entries name child hfolder hchild _ =>
          rw [advance_name hfolder (by decide)] at h
          split at h
          · cases h
          · rename_i hshort
            exact Nat.lt_of_not_le fun hfar => hshort ⟨rfl, hfar⟩
    · cases hstop
    · cases haim

theorem Follows.pathBytes_lt {tree : FileTree} {links : Nat} {place reached : Place}
    {pieces : List Piece} {content : ByteArray}
    (h : Follows tree .canonical links place pieces reached) (hne : pieces ≠ [])
    (hat : tree.at? reached = some (.file content)) : pathBytes reached < maxPathBytes := by
  induction h with
  | place hstop => exact pathBytes_of_advance hstop hne hat
  | link _ hstart _ ih => exact ih (ne_nil_of_start hstart _) hat

/-! ## Following canonical paths -/

/-- The names of a place lead to the place. -/
theorem advance_places {tree : FileTree} {aim : Aim} {place names : Place} {node : Node}
    (haim : aim ≠ .creation) (hlength : aim ≠ .canonical)
    (hat : tree.at? (place ++ names) = some node) (hkind : node.kind ≠ .link)
    (pieces : List Piece) :
    tree.advance aim place (names.map FileName.piece ++ pieces)
      = tree.advance aim (place ++ names) pieces := by
  induction names generalizing place with
  | nil => rw [List.append_nil, List.map_nil, List.nil_append]
  | cons name names ih =>
    rw [List.append_cons] at hat ⊢
    have hbelow := hat
    rw [at?_append] at hbelow
    obtain ⟨child, hchild, hnode⟩ := Option.bind_eq_some_iff.1 hbelow
    obtain ⟨entries, hplace⟩ := folder_of_child hchild
    have hlink := not_link_of_at? hnode hkind
    rw [at?_child hplace] at hchild
    rw [List.map_cons, List.cons_append,
      (Hop.down hplace hchild hlink).advance haim hlength]
    exact ih hat

theorem followable_ofPlace {place : Place} (hshort : pathBytes place < maxPathBytes) :
    Followable .target (Path.ofPlace place) := by
  refine ⟨?_, ?_, fun _ => ?_⟩
  · simp [Path.ofPlace, Path.ofPieces]
  · simp only [Path.ofPlace, Path.ofPieces, String.toList_ofList, List.mem_cons, not_or]
    exact ⟨by decide, place.nul_not_mem_joinSlash⟩
  · by_cases hne : place = []
    · subst hne
      decide
    · rw [Path.utf8ByteSize_ofPlace hne]
      exact hshort

/-- The canonical path of a node leads to it, unless it is too far from the top. -/
theorem find_ofPlace {tree : FileTree} {place : Place} {node : Node}
    (hat : tree.at? place = some node) (hkind : node.kind ≠ .link)
    (hshort : pathBytes place < maxPathBytes) :
    tree.find .target (Path.ofPlace place) = .ok (place, node) := by
  refine find_eq_ok_iff.2 ⟨followable_ofPlace hshort, .place ?_, hat⟩
  have hfromTop : tree.at? ([] ++ place) = some node := hat
  have horigin : tree.origin (Path.ofPlace place) = [] := by
    rw [origin, Path.ofPlace, Path.isAbsolute_ofPieces, if_pos rfl]
  rw [horigin, Path.steps_ofPlace, advance_places (by decide) (by decide) hfromTop hkind,
    List.nil_append]
  split
  · rename_i htop
    rw [htop]
    rfl
  · rw [advance_nil]

/-- The canonical path of a file leads to it. -/
theorem find_of_canonical {tree : FileTree} {path : Path} {place : Place} {content : ByteArray}
    (h : tree.find .canonical path = .ok (place, .file content)) :
    tree.find .target (Path.ofPlace place) = .ok (place, .file content) := by
  obtain ⟨_, hfollows, hat⟩ := find_eq_ok_iff.1 h
  exact find_ofPlace hat (by exact nofun) (hfollows.pathBytes_lt path.steps_ne_nil hat)

/-! ## Pieces without fillers -/

/-- The second pieces are the first ones without some of their fillers. -/
inductive Thins : List Piece → List Piece → Prop
  | nil : Thins [] []
  | keep {piece : Piece} {pieces thinned : List Piece} (rest : Thins pieces thinned) :
      Thins (piece :: pieces) (piece :: thinned)
  | drop {piece : Piece} {pieces thinned : List Piece} (filler : isFiller piece = true)
      (rest : Thins pieces thinned) : Thins (piece :: pieces) thinned

theorem Thins.refl (pieces : List Piece) : Thins pieces pieces := by
  induction pieces with
  | nil => exact .nil
  | cons piece pieces ih => exact .keep ih

theorem Thins.append {first second thinned less : List Piece} (hfirst : Thins first thinned)
    (hsecond : Thins second less) : Thins (first ++ second) (thinned ++ less) := by
  induction hfirst with
  | nil => exact hsecond
  | keep _ ih => exact .keep ih
  | drop hfiller _ ih => exact .drop hfiller ih

theorem Thins.filter (pieces : List Piece) :
    Thins pieces (pieces.filter fun piece => !isFiller piece) := by
  induction pieces with
  | nil => exact .nil
  | cons piece pieces ih =>
    rw [List.filter_cons]
    cases hfiller : isFiller piece with
    | true => exact .drop hfiller ih
    | false => exact .keep ih

/-- Fillers only stay where they are. -/
theorem advance_thins {tree : FileTree} {place : Place} {pieces thinned : List Piece}
    {stop : Stop} (h : tree.advance .target place pieces = .ok stop)
    (hthins : Thins pieces thinned) :
    (∃ reached, stop = .place reached ∧
        tree.advance .target place thinned = .ok (.place reached)) ∨
      ∃ folder target rest less, stop = .link folder target rest ∧ Thins rest less ∧
        tree.advance .target place thinned = .ok (.link folder target less) := by
  induction hthins generalizing place with
  | nil =>
    rw [advance_nil] at h
    cases h
    exact Or.inl ⟨place, rfl, advance_nil tree .target place⟩
  | keep hrest ih =>
    rcases advance_target_cases h with ⟨next, hop, hnext⟩ | ⟨target, met, hstop⟩
    · rw [hop.advance_target]
      exact ih hnext
    · exact Or.inr ⟨place, target, _, _, hstop, hrest, met.advance⟩
  | drop hfiller hrest ih =>
    rcases advance_target_cases h with ⟨next, hop, hnext⟩ | ⟨target, met, _⟩
    · cases hop with
      | stay => exact ih hnext
      | up => exact absurd hfiller (by decide)
      | @down entries name => rw [name.not_isFiller] at hfiller; cases hfiller
    · cases met with
      | @link entries name => rw [name.not_isFiller] at hfiller; cases hfiller

theorem Follows.thins {tree : FileTree} {links : Nat} {place reached : Place}
    {pieces thinned : List Piece} (h : Follows tree .target links place pieces reached)
    (hthins : Thins pieces thinned) : Follows tree .target links place thinned reached := by
  induction h generalizing thinned with
  | place hstop =>
    rcases advance_thins hstop hthins with ⟨met, hmet, hthinned⟩ | ⟨_, _, _, _, hmet, _⟩
    · cases hmet
      exact .place hthinned
    · cases hmet
  | link hstop hstart _ ih =>
    rcases advance_thins hstop hthins with ⟨_, hmet, _⟩ | ⟨_, _, _, _, hmet, hrest, hthinned⟩
    · cases hmet
    · cases hmet
      exact .link hthinned hstart (ih ((Thins.refl _).append hrest))

/-! ## Absolute paths -/

/-- The pieces that lead from the top to where a path leads. -/
def fromTop (tree : FileTree) (path : Path) : List Piece :=
  (tree.origin path).map FileName.piece ++ path.telling

theorem mem_fromTop {tree : FileTree} {path : Path} {piece : Piece}
    (h : piece ∈ tree.fromTop path) :
    (∃ name ∈ tree.here, piece = name.piece) ∨
      (piece ∈ path.spelling.pieces ∧ isFiller piece = false) := by
  rcases List.mem_append.1 h with hmem | hmem
  · unfold origin at hmem
    obtain ⟨name, hname, rfl⟩ := List.mem_map.1 hmem
    split at hname
    · cases hname
    · exact Or.inl ⟨name, hname, rfl⟩
  · obtain ⟨hpiece, hfiller⟩ := List.mem_filter.1 hmem
    exact Or.inr ⟨hpiece, by simpa using hfiller⟩

/-- The text of the absolute path, after the slash of two that a path may start with. -/
theorem absolute_eq (tree : FileTree) (path : Path) :
    tree.absolute path =
      let seen := Path.ofPieces
        (if tree.fromTop path = [] then [] else tree.fromTop path ++ path.ending)
      if path.hasTwoSlashes then ⟨"/" ++ seen.text⟩ else seen := by
  have hfolder : (if path.isAbsolute then [] else tree.here.map FileName.piece)
      = (tree.origin path).map FileName.piece := by
    unfold origin
    split <;> rfl
  unfold absolute
  dsimp only
  rw [hfolder]
  simp only [List.isEmpty_iff]
  rfl

theorem steps_absolute (tree : FileTree) (path : Path) :
    (tree.absolute path).steps =
      if tree.fromTop path = [] then [[]] else tree.fromTop path ++ path.ending := by
  have hpieces (pieces : List Piece) :
      (if path.hasTwoSlashes then ⟨"/" ++ (Path.ofPieces pieces).text⟩
        else Path.ofPieces pieces : Path).steps = (Path.ofPieces pieces).steps := by
    split
    · exact Path.steps_slash _
    · rfl
  rw [absolute_eq]
  dsimp only
  rw [hpieces]
  split
  · rfl
  · rename_i hne
    have hslash : ∀ piece ∈ tree.fromTop path ++ path.ending, '/' ∉ piece := by
      intro piece hmem
      rcases List.mem_append.1 hmem with hmem | hmem
      · rcases mem_fromTop hmem with ⟨name, _, rfl⟩ | ⟨hpiece, _⟩
        · exact name.slash_not_mem
        · exact Path.slash_not_mem_of_mem_pieces hpiece
      · unfold Path.ending at hmem
        split at hmem
        · rw [List.mem_singleton.1 hmem]
          simp
        · cases hmem
    have hfull : ∀ piece ∈ tree.fromTop path, piece ≠ [] := by
      rintro piece hmem rfl
      rcases mem_fromTop hmem with ⟨name, _, hname⟩ | ⟨_, hfiller⟩
      · exact name.piece_ne_nil hname.symm
      · exact absurd hfiller (by decide)
    have hnamed : (tree.fromTop path).filter (fun piece => piece ≠ []) = tree.fromTop path :=
      List.filter_eq_self.2 (by simpa using hfull)
    unfold Path.steps
    rw [Path.spelling_ofPieces (by simp [hne]) hslash]
    dsimp only
    rw [List.filter_append, hnamed]
    unfold Path.ending
    split
    · simp
    · have hlast : (tree.fromTop path).getLast? ≠ some [] :=
        fun h => hfull [] (List.mem_of_getLast? h) rfl
      simp [hlast]

/-- The characters of an absolute path are those of the current folder and of the path. -/
theorem mem_text_absolute {tree : FileTree} {path : Path} {c : Char}
    (h : c ∈ (tree.absolute path).text.toList) :
    c = '/' ∨ (∃ name ∈ tree.here, c ∈ name.piece) ∨ c ∈ path.text.toList := by
  have hpieces {pieces : List Piece} (h : c ∈ (Path.ofPieces pieces).text.toList)
      (hmem : ∀ piece ∈ pieces, piece ∈ tree.fromTop path ++ path.ending) :
      c = '/' ∨ (∃ name ∈ tree.here, c ∈ name.piece) ∨ c ∈ path.text.toList := by
    simp only [Path.ofPieces, String.toList_ofList, List.mem_cons] at h
    rcases h with hslash | hjoin
    · exact Or.inl hslash
    rcases mem_joinSlash hjoin with hslash | ⟨piece, hpiece, hc⟩
    · exact Or.inl hslash
    apply Or.inr
    rcases List.mem_append.1 (hmem piece hpiece) with hfrom | hending
    · rcases mem_fromTop hfrom with ⟨name, hname, rfl⟩ | ⟨hpath, _⟩
      · exact Or.inl ⟨name, hname, hc⟩
      · exact Or.inr (Path.mem_text_of_mem_pieces hpath hc)
    · unfold Path.ending at hending
      split at hending
      · rw [List.mem_singleton.1 hending] at hc
        cases hc
      · cases hending
  have hmem : ∀ piece ∈ (if tree.fromTop path = [] then [] else tree.fromTop path ++ path.ending),
      piece ∈ tree.fromTop path ++ path.ending := by
    intro piece hpiece
    split at hpiece
    · cases hpiece
    · exact hpiece
  rw [absolute_eq] at h
  dsimp only at h
  split at h
  · rw [String.toList_append, List.mem_append] at h
    rcases h with hslash | hseen
    · exact Or.inl (by simpa using hslash)
    · exact hpieces hseen hmem
  · exact hpieces h hmem

theorem followable_absolute {tree : FileTree} {path : Path}
    (hfollowable : Followable .target path)
    (hshort : (tree.absolute path).text.utf8ByteSize < maxPathBytes) :
    Followable .target (tree.absolute path) := by
  refine ⟨fun hempty => ?_, fun hnul => ?_, fun _ => hshort⟩
  · rw [absolute_eq] at hempty
    dsimp only at hempty
    split at hempty
    · simp at hempty
    · simp [Path.ofPieces] at hempty
  · rcases mem_text_absolute hnul with hslash | ⟨name, _, hname⟩ | hpath
    · exact absurd hslash (by decide)
    · exact name.nul_not_mem hname
    · exact hfollowable.nul_not_mem hpath

theorem isAbsolute_absolute (tree : FileTree) (path : Path) :
    (tree.absolute path).isAbsolute = true := by
  rw [absolute_eq]
  dsimp only
  split
  · simp only [Path.isAbsolute, Path.spelling, Path.ofPieces, String.toList_append,
      String.toList_ofList]
    rfl
  · exact Path.isAbsolute_ofPieces _

/-- What the first pieces do decides where they lead. -/
theorem Follows.of_advance {tree : FileTree} {links : Nat} {place start reached : Place}
    {pieces ahead : List Piece} (h : Follows tree .target links place pieces reached)
    (hsame : tree.advance .target start ahead = tree.advance .target place pieces) :
    Follows tree .target links start ahead reached := by
  cases h with
  | place hstop => exact .place (hsame.trans hstop)
  | link hstop hstart honward => exact .link (hsame.trans hstop) hstart honward

/-- A path is followed from a folder. -/
theorem Follows.folder {tree : FileTree} {links : Nat} {place reached : Place}
    {pieces : List Piece} (h : Follows tree .target links place pieces reached)
    (hne : pieces ≠ []) : ∃ entries, tree.at? place = some (.folder entries) := by
  obtain ⟨piece, pieces, rfl⟩ := List.exists_cons_of_ne_nil hne
  have hfirst {stop : Stop} (hstop : tree.advance .target place (piece :: pieces) = .ok stop) :
      ∃ entries, tree.at? place = some (.folder entries) := by
    rcases advance_target_cases hstop with ⟨_, hop, _⟩ | ⟨_, met, _⟩
    · cases hop with
      | stay hfolder _ => exact ⟨_, hfolder⟩
      | up hfolder => exact ⟨_, hfolder⟩
      | down hfolder _ _ => exact ⟨_, hfolder⟩
    · cases met with
      | link hfolder _ => exact ⟨_, hfolder⟩
  cases h with
  | place hstop => exact hfirst hstop
  | link hstop _ _ => exact hfirst hstop

/-- The pieces from the top lead where the path leads. -/
theorem follows_fromTop {tree : FileTree} {path : Path} {place : Place} {node : Node}
    (h : tree.find .target path = .ok (place, node)) :
    Follows tree .target maxLinks [] (tree.fromTop path ++ path.ending) place := by
  obtain ⟨-, hfollows, -⟩ := find_eq_ok_iff.1 h
  obtain ⟨entries, hfolder⟩ := hfollows.folder path.steps_ne_nil
  have hthinned : Thins path.steps (path.telling ++ path.ending) := by
    rw [Path.steps_eq, path.telling_eq_filter_named]
    exact (Thins.filter _).append (Thins.refl _)
  have hnames : tree.at? ([] ++ tree.origin path) = some (.folder entries) := hfolder
  have hkind : (Node.folder entries).kind ≠ .link := by
    intro hlink
    cases hlink
  apply (hfollows.thins hthinned).of_advance
  rw [fromTop, List.append_assoc,
    advance_places (by decide) (by decide) hnames hkind, List.nil_append]

/-- The absolute path leads where the path leads, unless it is too long. -/
theorem find_absolute {tree : FileTree} {path : Path} {place : Place} {node : Node}
    (h : tree.find .target path = .ok (place, node))
    (hshort : (tree.absolute path).text.utf8ByteSize < maxPathBytes) :
    tree.find .target (tree.absolute path) = .ok (place, node) := by
  obtain ⟨hfollowable, -, hat⟩ := find_eq_ok_iff.1 h
  refine find_eq_ok_iff.2 ⟨followable_absolute hfollowable hshort, ?_, hat⟩
  have hfrom := follows_fromTop h
  have horigin : tree.origin (tree.absolute path) = [] := by
    rw [origin, isAbsolute_absolute, if_pos rfl]
  rw [horigin, steps_absolute]
  split
  · rename_i hempty
    rw [hempty, List.nil_append] at hfrom
    apply hfrom.of_advance
    unfold Path.ending
    split <;> rfl
  · exact hfrom

/-! ## Paths of names -/

/-- Names lead down from the current folder. -/
theorem find_ofNames {tree : FileTree} {aim : Aim} {names : Place} {node : Node}
    (haim : aim ≠ .creation) (hlength : aim ≠ .canonical) (hne : names ≠ [])
    (hat : tree.at? (tree.here ++ names) = some node) (hkind : node.kind ≠ .link)
    (hshort : (Path.ofNames names).text.utf8ByteSize < maxPathBytes) :
    tree.find aim (Path.ofNames names) = .ok (tree.here ++ names, node) := by
  have hspelling := Path.spelling_ofNames hne
  refine find_eq_ok_iff.2 ⟨⟨Path.text_ofNames_ne hne, ?_, fun _ => hshort⟩, .place ?_, hat⟩
  · rw [Path.ofNames, String.toList_ofList]
    exact names.nul_not_mem_joinSlash
  · have horigin : tree.origin (Path.ofNames names) = tree.here := by
      rw [origin, Path.isAbsolute, hspelling, if_neg (by simp)]
    have hsteps : (Path.ofNames names).steps = names.pieces ++ [] := by
      rw [Path.steps, hspelling]
      dsimp only
      rw [if_neg names.getLast?_ne, names.filter_ne_nil]
    rw [horigin, hsteps, advance_places haim hlength hat hkind, advance_nil]

theorem absolute_ofNames (tree : FileTree) {names : Place} (hne : names ≠ []) :
    tree.absolute (Path.ofNames names) = Path.ofPlace (tree.here ++ names) := by
  have hspelling := Path.spelling_ofNames hne
  have hrelative : (Path.ofNames names).isAbsolute = false := by
    rw [Path.isAbsolute, hspelling]
  have hfrom : tree.fromTop (Path.ofNames names) = (tree.here ++ names).pieces := by
    rw [fromTop, origin, hrelative, if_neg (by simp), Path.telling, hspelling,
      names.filter_not_isFiller, Place.pieces, Place.pieces, List.map_append]
  have hending : (Path.ofNames names).ending = [] := by
    rw [Path.ending, hspelling, if_neg names.getLast?_ne]
  have hfull : (tree.here ++ names).pieces ≠ [] := by simp [hne]
  rw [absolute_eq]
  dsimp only
  rw [hfrom, hending, if_neg hfull, List.append_nil,
    Path.hasTwoSlashes_of_not_isAbsolute hrelative, if_neg (by simp)]
  rfl

end FileTree

end FeatureDigest
