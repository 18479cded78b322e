import FeatureDigest.Proofs.Path.Pieces

/-!
# Following longer paths

What a walk needs to know about paths: one name more leads one step further down.  One
piece leads from a folder to another place or names a link (`advance_cons_cases`), pieces
that follow others are followed from where those lead (`follow_append`), and so an entry
of a folder is found under the folder's path and its name, unless that path is too long
(`find_join`).
-/

set_option autoImplicit false

namespace FeatureDigest

namespace FileTree

/-! ## One piece -/

theorem at?_child {tree : FileTree} {place : Place} {entries : Entries} {name : FileName}
    (hat : tree.at? place = some (.folder entries)) :
    tree.at? (place ++ [name]) = Entries.find? name entries := by
  rw [at?_append, hat]
  cases h : Entries.find? name entries <;> simp [Node.at?, Node.entries, h]

theorem advance_filler {tree : FileTree} {aim : Aim} {place : Place} {entries : Entries}
    {piece : Piece} (hat : tree.at? place = some (.folder entries))
    (hfiller : isFiller piece = true) (pieces : List Piece) :
    tree.advance aim place (piece :: pieces) = tree.advance aim place pieces := by
  simp only [advance_cons, hat, hfiller, if_true]

theorem advance_up {tree : FileTree} {aim : Aim} {place : Place} {entries : Entries}
    (hat : tree.at? place = some (.folder entries)) (pieces : List Piece) :
    tree.advance aim place (['.', '.'] :: pieces)
      = tree.advance aim place.dropLast pieces := by
  have hfiller : isFiller ['.', '.'] = false := by decide
  simp only [advance_cons, hat, hfiller, Bool.false_eq_true, if_false, if_true]

/-- What the piece of a name does in a folder. -/
theorem advance_name {tree : FileTree} {aim : Aim} {place : Place} {entries : Entries}
    {name : FileName} (hat : tree.at? place = some (.folder entries))
    (haim : aim ≠ .creation) (pieces : List Piece) :
    tree.advance aim place (name.piece :: pieces) =
      if aim = .canonical ∧ maxPathBytes ≤ pathBytes (place ++ [name]) then
        .error .nameTooLong
      else
        match Entries.find? name entries with
        | none => .error .notFound
        | some (.link target) =>
          if aim = .entry ∧ pieces = [] then .ok (.place (place ++ [name]))
          else .ok (.link place target pieces)
        | some _ => tree.advance aim (place ++ [name]) pieces := by
  have hlong : ¬ maxNameBytes < Text.byteCount name.piece := Nat.not_lt_of_le name.byteCount_le
  rw [advance_cons, hat]
  cases hchild : Entries.find? name entries with
  | none =>
    simp only [name.not_isFiller, name.ne_up, hlong, FileName.ofPiece?_piece, hchild, haim,
      Bool.false_eq_true, if_false, false_and]
  | some child =>
    cases child <;>
      simp only [name.not_isFiller, name.ne_up, hlong, FileName.ofPiece?_piece, hchild, haim,
        Bool.false_eq_true, if_false, false_and]

/-- One piece leads from a folder to another place without a link. -/
inductive Hop (tree : FileTree) (place : Place) : Piece → Place → Prop
  | stay {entries : Entries} {piece : Piece}
      (folder : tree.at? place = some (.folder entries)) (filler : isFiller piece = true) :
      Hop tree place piece place
  | up {entries : Entries} (folder : tree.at? place = some (.folder entries)) :
      Hop tree place ['.', '.'] place.dropLast
  | down {entries : Entries} {name : FileName} {child : Node}
      (folder : tree.at? place = some (.folder entries))
      (found : Entries.find? name entries = some child) (kind : child.kind ≠ .link) :
      Hop tree place name.piece (place ++ [name])

/-- One piece names a link in a folder. -/
inductive Meets (tree : FileTree) (place : Place) : Piece → Path → Prop
  | link {entries : Entries} {name : FileName} {target : Path}
      (folder : tree.at? place = some (.folder entries))
      (found : Entries.find? name entries = some (.link target)) :
      Meets tree place name.piece target

/-- What the first piece does when following some of them succeeds. -/
theorem advance_cons_cases {tree : FileTree} {aim : Aim} {place : Place} {piece : Piece}
    {pieces : List Piece} {stop : Stop} (haim : aim ≠ .creation)
    (h : tree.advance aim place (piece :: pieces) = .ok stop) :
    (∃ next, Hop tree place piece next ∧ tree.advance aim next pieces = .ok stop) ∨
      (∃ target, Meets tree place piece target ∧ stop = .link place target pieces) ∨
      (aim = .entry ∧ pieces = [] ∧ ∃ reached target,
        stop = .place reached ∧ tree.at? reached = some (.link target)) := by
  rw [advance_cons] at h
  cases hat : tree.at? place with
  | none => simp [hat] at h
  | some node =>
    cases node with
    | file content => simp [hat] at h
    | link target => simp [hat] at h
    | folder entries =>
      simp only [hat, haim, false_and, if_false] at h
      split at h
      · rename_i hfiller
        exact Or.inl ⟨place, .stay hat hfiller, h⟩
      · split at h
        · rename_i hup
          exact Or.inl ⟨place.dropLast, hup ▸ .up hat, h⟩
        · split at h
          · cases h
          · split at h
            · cases h
            · rename_i name hname
              have hpiece : name.piece = piece := FileName.piece_of_ofPiece? hname
              split at h
              · cases h
              · split at h
                · cases h
                · rename_i target hchild
                  split at h
                  · rename_i hlast
                    cases h
                    exact Or.inr (Or.inr ⟨hlast.1, hlast.2, place ++ [name], target, rfl,
                      by rw [at?_child hat, hchild]⟩)
                  · cases h
                    exact Or.inr (Or.inl ⟨target, hpiece ▸ .link hat hchild, rfl⟩)
                · rename_i child hlink hchild
                  have hkind : child.kind ≠ .link := by
                    cases child with
                    | file content => exact nofun
                    | folder below => exact nofun
                    | link target => exact absurd rfl (hlink target)
                  exact Or.inl ⟨place ++ [name], hpiece ▸ .down hat hchild hkind, h⟩

/-- What the first piece does on the way to what pieces lead to. -/
theorem advance_target_cases {tree : FileTree} {place : Place} {piece : Piece}
    {pieces : List Piece} {stop : Stop}
    (h : tree.advance .target place (piece :: pieces) = .ok stop) :
    (∃ next, Hop tree place piece next ∧ tree.advance .target next pieces = .ok stop) ∨
      ∃ target, Meets tree place piece target ∧ stop = .link place target pieces := by
  rcases advance_cons_cases (by decide) h with hop | met | ⟨haim, _⟩
  · exact Or.inl hop
  · exact Or.inr met
  · cases haim

theorem Hop.advance {tree : FileTree} {aim : Aim} {place next : Place} {piece : Piece}
    (h : Hop tree place piece next) (haim : aim ≠ .creation) (hlength : aim ≠ .canonical)
    (pieces : List Piece) :
    tree.advance aim place (piece :: pieces) = tree.advance aim next pieces := by
  cases h with
  | stay hat hfiller => exact advance_filler hat hfiller pieces
  | up hat => exact advance_up hat pieces
  | @down entries name child hat hchild hkind =>
    rw [advance_name hat haim, if_neg (fun hfar => hlength hfar.1), hchild]
    cases child with
    | file content => rfl
    | folder below => rfl
    | link target => exact absurd rfl hkind

theorem Hop.advance_target {tree : FileTree} {place next : Place} {piece : Piece}
    (h : Hop tree place piece next) (pieces : List Piece) :
    tree.advance .target place (piece :: pieces) = tree.advance .target next pieces :=
  h.advance (by decide) (by decide) pieces

theorem Meets.advance {tree : FileTree} {place : Place} {piece : Piece} {target : Path}
    {pieces : List Piece} (h : Meets tree place piece target) :
    tree.advance .target place (piece :: pieces) = .ok (.link place target pieces) := by
  cases h with
  | @link entries name target hat hchild =>
    rw [advance_name hat (by decide), hchild]
    simp only [reduceCtorEq, false_and, if_false]

/-! ## Pieces after other pieces -/

/-- Pieces that follow others are followed from where those lead, or after the link that
is met on the way. -/
theorem advance_append (tree : FileTree) (place : Place) (first second : List Piece) :
    tree.advance .target place (first ++ second) =
      match tree.advance .target place first with
      | .error fault => .error fault
      | .ok (.place reached) => tree.advance .target reached second
      | .ok (.link folder target rest) => .ok (.link folder target (rest ++ second)) := by
  induction first generalizing place with
  | nil => rw [List.nil_append, advance_nil]
  | cons piece first ih =>
    rw [List.cons_append, advance_cons, advance_cons]
    repeat' split
    all_goals simp_all

/-- Where pieces lead from a place, through so many links at most. -/
inductive Follows (tree : FileTree) (aim : Aim) : Nat → Place → List Piece → Place → Prop
  /-- The pieces lead to their end without a link. -/
  | place {links : Nat} {place reached : Place} {pieces : List Piece}
      (stop : tree.advance aim place pieces = .ok (.place reached)) :
      Follows tree aim links place pieces reached
  /-- A link is met, and followed in front of the pieces that are left. -/
  | link {links : Nat} {place folder next reached : Place} {target : Path}
      {pieces rest ahead : List Piece}
      (stop : tree.advance aim place pieces = .ok (.link folder target rest))
      (outset : start folder target = .ok (next, ahead))
      (onward : Follows tree aim links next (ahead ++ rest) reached) :
      Follows tree aim (links + 1) place pieces reached

theorem follow_eq_ok_iff {tree : FileTree} {aim : Aim} {links : Nat}
    {place reached : Place} {pieces : List Piece} :
    tree.follow aim links place pieces = .ok reached
      ↔ Follows tree aim links place pieces reached := by
  constructor
  · intro h
    induction links generalizing place pieces with
    | zero =>
      unfold follow at h
      split at h
      · cases h
      · rename_i met hstop
        cases h
        exact .place hstop
      · cases h
    | succ links ih =>
      unfold follow at h
      split at h
      · cases h
      · rename_i met hstop
        cases h
        exact .place hstop
      · rename_i folder target rest hstop
        split at h
        · cases h
        · rename_i next ahead hstart
          exact .link hstop hstart (ih h)
  · intro h
    induction h with
    | @place links place reached pieces hstop =>
      cases links <;> simp only [follow, hstop]
    | link hstop hstart _ ih => simp only [follow, hstop, hstart, ih]

/-- What is reached through some pieces is where pieces that follow them start, with the
links that are left. -/
theorem follow_append {tree : FileTree} {links : Nat} {place reached : Place}
    {first : List Piece} (h : tree.follow .target links place first = .ok reached) :
    ∃ left, ∀ second, tree.follow .target links place (first ++ second)
      = tree.follow .target left reached second := by
  induction follow_eq_ok_iff.1 h with
  | @place links place reached first hstop =>
    refine ⟨links, ?_⟩
    intro second
    cases links <;> simp only [follow, advance_append, hstop]
  | @link links place folder next reached target first rest ahead hstop hstart honward ih =>
    obtain ⟨left, hleft⟩ := ih (follow_eq_ok_iff.2 honward)
    refine ⟨left, ?_⟩
    intro second
    rw [← hleft second, List.append_assoc]
    simp only [follow, advance_append, hstop, hstart]

/-- A slash at the end changes nothing about where a path leads. -/
theorem follow_of_slash {tree : FileTree} {links : Nat} {place reached : Place}
    {pieces : List Piece}
    (h : tree.follow .target links place (pieces ++ [[]]) = .ok reached) :
    tree.follow .target links place pieces = .ok reached := by
  have hslash {met : Place} {stop : Stop}
      (hstop : tree.advance .target met [[]] = .ok stop) : stop = .place met := by
    rw [advance_cons] at hstop
    split at hstop
    · cases hstop
    · cases hstop
    · cases hstop
    · simpa [isFiller, eq_comm] using hstop
  rw [follow_eq_ok_iff] at h ⊢
  -- What is left at a link ends with the same empty piece, so the induction is on all
  -- pieces and says something about those in front of the last one.
  generalize hall : pieces ++ [[]] = all at h
  induction h generalizing pieces with
  | @place links place reached all hstop =>
    rw [← hall, advance_append] at hstop
    split at hstop
    · cases hstop
    · rename_i met hpieces
      cases hslash hstop
      exact .place hpieces
    · cases hstop
  | @link links place folder next reached target all rest ahead hstop hstart _ ih =>
    rw [← hall, advance_append] at hstop
    split at hstop
    · cases hstop
    · cases hslash hstop
    · rename_i met aimed left hpieces
      cases hstop
      exact .link hpieces hstart (ih (List.append_assoc ..))

/-! ## What a path leads to -/

/-- Where following a path starts. -/
def origin (tree : FileTree) (path : Path) : Place :=
  if path.isAbsolute then [] else tree.here

/-- Pieces are left to follow at each link. -/
theorem ne_nil_of_start {folder next : Place} {target : Path} {ahead : List Piece}
    (h : start folder target = .ok (next, ahead)) (rest : List Piece) : ahead ++ rest ≠ [] := by
  unfold start at h
  split at h
  · cases h
  · cases h
    exact List.append_ne_nil_of_left_ne_nil target.steps_ne_nil rest

/-- What a path has to be like to be followed at all. -/
structure Followable (aim : Aim) (path : Path) : Prop where
  not_empty : path.text ≠ ""
  nul_not_mem : '\x00' ∉ path.text.toList
  short : aim ≠ .canonical → path.text.utf8ByteSize < maxPathBytes

theorem outset_eq_ok_iff {tree : FileTree} {aim : Aim} {path : Path} {place : Place}
    {pieces : List Piece} :
    tree.outset aim path = .ok (place, pieces)
      ↔ Followable aim path ∧ place = tree.origin path ∧ pieces = path.steps := by
  have hempty : path.text.isEmpty = true ↔ path.text = "" := String.isEmpty_iff
  unfold outset start
  constructor
  · intro h
    split at h
    · cases h
    · rename_i hnul
      split at h
      · cases h
      · rename_i hlong
        split at h
        · cases h
        · rename_i hne
          cases h
          refine ⟨⟨fun e => hne (hempty.2 e), by simpa using hnul, ?_⟩, rfl, rfl⟩
          intro haim
          exact Nat.lt_of_not_le fun hle => hlong ⟨haim, hle⟩
  · rintro ⟨⟨hne, hnul, hshort⟩, rfl, rfl⟩
    rw [if_neg (by simpa using hnul), if_neg, if_neg (fun e => hne (hempty.1 e))]
    · rfl
    · rintro ⟨haim, hle⟩
      exact absurd (hshort haim) (Nat.not_lt_of_le hle)

/-- A path leads to a node when its pieces lead to the place of the node. -/
theorem find_eq_ok_iff {tree : FileTree} {aim : Aim} {path : Path} {place : Place}
    {node : Node} :
    tree.find aim path = .ok (place, node)
      ↔ Followable aim path ∧ Follows tree aim maxLinks (tree.origin path) path.steps place
        ∧ tree.at? place = some node := by
  unfold find resolve
  constructor
  · intro h
    cases houtset : tree.outset aim path with
    | error fault => simp [houtset] at h
    | ok outset =>
      obtain ⟨first, pieces⟩ := outset
      obtain ⟨hfollowable, rfl, rfl⟩ := outset_eq_ok_iff.1 houtset
      simp only [houtset] at h
      cases hfollow : tree.follow aim maxLinks (tree.origin path) path.steps with
      | error fault => simp [hfollow] at h
      | ok reached =>
        simp only [hfollow] at h
        cases hat : tree.at? reached with
        | none => simp [hat] at h
        | some found =>
          simp only [hat, Except.ok.injEq, Prod.mk.injEq] at h
          obtain ⟨rfl, rfl⟩ := h
          exact ⟨hfollowable, follow_eq_ok_iff.1 hfollow, hat⟩
  · rintro ⟨hfollowable, hfollows, hat⟩
    have houtset : tree.outset aim path = .ok (tree.origin path, path.steps) :=
      outset_eq_ok_iff.2 ⟨hfollowable, rfl, rfl⟩
    simp only [houtset, follow_eq_ok_iff.2 hfollows, hat]

/-- A path that is too long leads to nothing. -/
theorem find_of_long (tree : FileTree) {path : Path}
    (h : maxPathBytes ≤ path.text.utf8ByteSize) :
    ∃ fault, tree.find .target path = .error fault := by
  cases hfind : tree.find .target path with
  | error fault => exact ⟨fault, rfl⟩
  | ok found =>
    have hshort := (find_eq_ok_iff.1 hfind).1.short (by decide)
    exact absurd hshort (Nat.not_lt_of_le h)

theorem reaches_eq_true_iff {tree : FileTree} {path : Path} :
    tree.reaches path = true ↔ ∃ place node, tree.find .target path = .ok (place, node) := by
  rw [reaches, targetKind]
  cases tree.find .target path with
  | error fault => exact ⟨nofun, nofun⟩
  | ok found => exact ⟨fun _ => ⟨found.1, found.2, rfl⟩, fun _ => rfl⟩

theorem reaches_congr {tree : FileTree} {first second : Path}
    (h : tree.find .target first = tree.find .target second) :
    tree.reaches first = tree.reaches second := by
  rw [reaches, reaches, targetKind, targetKind, h]

theorem followable_join {path : Path} {name : FileName} (hnul : '\x00' ∉ path.text.toList)
    (hshort : (path.join ⟨String.ofList name.piece⟩).text.utf8ByteSize < maxPathBytes) :
    Followable .target (path.join ⟨String.ofList name.piece⟩) := by
  obtain ⟨slash, hslash, htext⟩ := path.text_join name
  refine ⟨?_, ?_, fun _ => hshort⟩
  · rw [htext]
    simp [name.piece_ne_nil]
  · rw [htext]
    rcases hslash with rfl | rfl
    · simpa using ⟨hnul, name.nul_not_mem⟩
    · simpa using ⟨hnul, name.nul_not_mem⟩

/-- An entry of a folder that is no link is found under the path of the folder and its
name, unless this is too long. -/
theorem find_join {tree : FileTree} {path : Path} {place : Place} {entries : Entries}
    {name : FileName} {child : Node}
    (h : tree.find .target path = .ok (place, .folder entries))
    (hchild : Entries.find? name entries = some child) (hkind : child.kind ≠ .link)
    (hshort : (path.join ⟨String.ofList name.piece⟩).text.utf8ByteSize < maxPathBytes) :
    tree.find .target (path.join ⟨String.ofList name.piece⟩)
      = .ok (place ++ [name], child) := by
  obtain ⟨hfollowable, hfollows, hat⟩ := find_eq_ok_iff.1 h
  have hnamed : tree.follow .target maxLinks (tree.origin path) path.named = .ok place := by
    have hfollow := follow_eq_ok_iff.2 hfollows
    rcases path.steps_eq_named with hsteps | hsteps
    · rw [← hsteps, hfollow]
    · rw [hsteps] at hfollow
      exact follow_of_slash hfollow
  refine find_eq_ok_iff.2 ⟨followable_join hfollowable.nul_not_mem hshort, ?_, ?_⟩
  · obtain ⟨left, hleft⟩ := follow_append hnamed
    have hname : Follows tree .target left place [name.piece] (place ++ [name]) := by
      apply Follows.place
      rw [(Hop.down hat hchild hkind).advance_target, advance_nil]
    have horigin : tree.origin (path.join ⟨String.ofList name.piece⟩) = tree.origin path := by
      unfold origin
      rw [Path.isAbsolute_join]
    rw [horigin, Path.steps_join, ← follow_eq_ok_iff, hleft, follow_eq_ok_iff]
    exact hname
  · rw [at?_child hat, hchild]

theorem not_link_of_at? {node child : Node} {names : Place} (h : node.at? names = some child)
    (hkind : child.kind ≠ .link) : node.kind ≠ .link := by
  cases node with
  | file content => exact nofun
  | folder entries => exact nofun
  | link target =>
    cases names with
    | nil =>
      cases h
      exact absurd rfl hkind
    | cons name names => cases h

/-- What names lead to from a folder is found under the path of the folder and the names. -/
theorem find_under {tree : FileTree} {path : Path} {place names : Place} {node child : Node}
    (h : tree.find .target path = .ok (place, node)) (hchild : node.at? names = some child)
    (hkind : child.kind ≠ .link)
    (hshort : (path.under names).text.utf8ByteSize < maxPathBytes) :
    tree.find .target (path.under names) = .ok (place ++ names, child) := by
  induction names generalizing path place node with
  | nil =>
    cases hchild
    rw [Path.under_nil, List.append_nil, h]
  | cons name names ih =>
    rw [Node.at?] at hchild
    split at hchild
    · rename_i between hbetween
      cases node with
      | file content => cases hbetween
      | link target => cases hbetween
      | folder entries =>
        rw [Path.under_cons] at hshort ⊢
        have hfirst := find_join h hbetween (not_link_of_at? hchild hkind)
          (Nat.lt_of_le_of_lt (Path.utf8ByteSize_le_under _ names) hshort)
        rw [ih hfirst hchild hshort, List.append_assoc, List.singleton_append]
    · cases hchild

/-! ## Entries that are no links -/

/-- Following pieces to an entry differs from following them to what they lead to only
where the last of them names a link. -/
theorem advance_entry {tree : FileTree} {place : Place} {pieces : List Piece} {stop : Stop}
    (h : tree.advance .entry place pieces = .ok stop) :
    tree.advance .target place pieces = .ok stop ∨
      ∃ reached target, stop = .place reached ∧ tree.at? reached = some (.link target) := by
  induction pieces generalizing place with
  | nil => exact Or.inl (by rw [← h, advance_nil, advance_nil])
  | cons piece pieces ih =>
    rcases advance_cons_cases (by decide) h with ⟨next, hop, hnext⟩ | ⟨target, met, hstop⟩ |
      ⟨_, _, reached, target, hstop, hat⟩
    · rw [hop.advance_target]
      exact ih hnext
    · rw [met.advance, hstop]
      exact Or.inl rfl
    · exact Or.inr ⟨reached, target, hstop, hat⟩

theorem Follows.of_entry {tree : FileTree} {links : Nat} {place reached : Place}
    {pieces : List Piece} (h : Follows tree .entry links place pieces reached)
    (hlink : ∀ target, tree.at? reached ≠ some (.link target)) :
    Follows tree .target links place pieces reached := by
  induction h with
  | place hstop =>
    rcases advance_entry hstop with hstop | ⟨met, target, hmet, hat⟩
    · exact .place hstop
    · cases hmet
      exact absurd hat (hlink target)
  | link hstop hstart _ ih =>
    rcases advance_entry hstop with hstop | ⟨met, target, hmet, _⟩
    · exact .link hstop hstart (ih hlink)
    · cases hmet

/-- The entry that a path names is what the path leads to, unless it is a link. -/
theorem find_of_entry {tree : FileTree} {path : Path} {place : Place} {node : Node}
    (h : tree.find .entry path = .ok (place, node)) (hkind : node.kind ≠ .link) :
    tree.find .target path = .ok (place, node) := by
  obtain ⟨⟨hempty, hnul, hshort⟩, hfollows, hat⟩ := find_eq_ok_iff.1 h
  have hlink (target : Path) : tree.at? place ≠ some (.link target) := by
    rw [hat]
    intro e
    cases e
    exact hkind rfl
  exact find_eq_ok_iff.2
    ⟨⟨hempty, hnul, fun _ => hshort (by decide)⟩, hfollows.of_entry hlink, hat⟩

/-! ## Entries of what is reached -/

/-- Pieces that lead to a node lead to an entry as well, which may be a link to the node. -/
theorem exists_advance_entry {tree : FileTree} {place : Place} {pieces : List Piece}
    {stop : Stop} (h : tree.advance .target place pieces = .ok stop) :
    tree.advance .entry place pieces = .ok stop ∨
      ∃ reached target, tree.advance .entry place pieces = .ok (.place reached) ∧
        tree.at? reached = some (.link target) := by
  induction pieces generalizing place with
  | nil => exact Or.inl (by rw [← h, advance_nil, advance_nil])
  | cons piece pieces ih =>
    rcases advance_target_cases h with ⟨next, hop, hnext⟩ | ⟨target, met, rfl⟩
    · rw [hop.advance (by decide) (by decide)]
      exact ih hnext
    · cases met with
      | @link entries name target hat hchild =>
        rw [advance_name hat (by decide), hchild, if_neg fun hfar => nomatch hfar.1]
        by_cases hlast : pieces = []
        · refine Or.inr ⟨place ++ [name], target, if_pos ⟨rfl, hlast⟩, ?_⟩
          rw [at?_child hat, hchild]
        · exact Or.inl (if_neg fun hentry => hlast hentry.2)

theorem Follows.exists_entry {tree : FileTree} {links : Nat} {place reached : Place}
    {pieces : List Piece} (h : Follows tree .target links place pieces reached)
    (hat : (tree.at? reached).isSome) :
    ∃ entry, Follows tree .entry links place pieces entry ∧ (tree.at? entry).isSome := by
  induction h with
  | @place links place reached pieces hstop =>
    rcases exists_advance_entry hstop with hsame | ⟨entry, target, hentry, hlink⟩
    · exact ⟨reached, .place hsame, hat⟩
    · exact ⟨entry, .place hentry, Option.isSome_of_eq_some hlink⟩
  | link hstop hstart _ ih =>
    rcases exists_advance_entry hstop with hsame | ⟨entry, target, hentry, hlink⟩
    · obtain ⟨entry, honward, hthere⟩ := ih hat
      exact ⟨entry, .link hsame hstart honward, hthere⟩
    · exact ⟨entry, .place hentry, Option.isSome_of_eq_some hlink⟩

/-- A path that leads to something names an entry. -/
theorem exists_find_entry {tree : FileTree} {path : Path} {place : Place} {node : Node}
    (h : tree.find .target path = .ok (place, node)) :
    ∃ entry child, tree.find .entry path = .ok (entry, child) := by
  obtain ⟨⟨hempty, hnul, hshort⟩, hfollows, hat⟩ := find_eq_ok_iff.1 h
  obtain ⟨entry, hentry, hthere⟩ := hfollows.exists_entry (Option.isSome_of_eq_some hat)
  obtain ⟨child, hchild⟩ := Option.isSome_iff_exists.1 hthere
  exact ⟨entry, child, find_eq_ok_iff.2
    ⟨⟨hempty, hnul, fun _ => hshort (by decide)⟩, hentry, hchild⟩⟩

/-! ## Trees without links -/

/-- The tree has no links. -/
def Linkless (tree : FileTree) : Prop := ∀ place target, tree.at? place ≠ some (.link target)

theorem Linkless.advance_entry {tree : FileTree} (h : tree.Linkless) (place : Place)
    (pieces : List Piece) :
    tree.advance .entry place pieces = tree.advance .target place pieces := by
  induction pieces generalizing place with
  | nil => rw [advance_nil, advance_nil]
  | cons piece pieces ih =>
    rw [advance_cons, advance_cons]
    cases hat : tree.at? place with
    | none => rfl
    | some node =>
      cases node with
      | file content => rfl
      | link target => rfl
      | folder entries =>
        simp only [ih, reduceCtorEq, false_and, if_false]
        cases FileName.ofPiece? piece with
        | none => rfl
        | some name =>
          have hlink (target : Path) : Entries.find? name entries ≠ some (.link target) := by
            rw [← at?_child hat]
            exact h _ target
          cases hchild : Entries.find? name entries with
          | none => simp only [hchild]
          | some child =>
            cases child with
            | file content => simp only [hchild]
            | folder below => simp only [hchild]
            | link target => exact absurd hchild (hlink target)

/-- Where there are no links, a path names the entry that it leads to. -/
theorem Linkless.find_entry {tree : FileTree} (h : tree.Linkless) (path : Path) :
    tree.find .entry path = tree.find .target path := by
  have hfollow (links : Nat) (place : Place) (pieces : List Piece) :
      tree.follow .entry links place pieces = tree.follow .target links place pieces := by
    induction links generalizing place pieces with
    | zero => rw [follow, follow, h.advance_entry]
    | succ links ih => simp only [follow, h.advance_entry, ih]
  have houtset : tree.outset .entry path = tree.outset .target path := by
    simp [outset]
  simp only [find, resolve, houtset, hfollow]

end FileTree

end FeatureDigest
