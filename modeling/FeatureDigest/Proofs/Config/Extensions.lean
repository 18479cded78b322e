import FeatureDigest.Path.Extension
import FeatureDigest.Proofs.Config.Validity
import FeatureDigest.Proofs.Path.Fillers

/-!
# Extensions that paths can have

What a path must be spelled like to have an extension (`Path.hasExtension_iff`): whatever trails
behind it, its last component is a name (`SpellsLast`), and the extension is what follows the last
dot of the name, when something stands before that dot.

So an extension that was asked for, less the dots in front of it, is that of some path when it has
neither a dot nor a slash (`Path.exists_hasExtension_iff`).  Nothing checks this: a valid
configuration can ask for extensions that no path has.
-/

set_option autoImplicit false

namespace FeatureDigest

open Component (ofPiece?)

/-! ## Last items -/

theorem getLast?_cons_eq_some_iff {α : Type} {first last : α} {items : List α} (h : first ≠ last) :
    (first :: items).getLast? = some last ↔ items.getLast? = some last := by
  rw [List.getLast?_cons]
  cases items.getLast? with
  | none => simpa using h
  | some other => rfl

/-- The last item that a function keeps has items behind it that the function drops. -/
theorem getLast?_filterMap_eq_some_iff {α β : Type} {f : α → Option β} {items : List α} {last : β} :
    (items.filterMap f).getLast? = some last
      ↔ ∃ front item behind, items = front ++ item :: behind ∧ f item = some last ∧
          ∀ other ∈ behind, f other = none := by
  rw [List.getLast?_filterMap, List.findSome?_eq_some_iff]
  constructor
  · rintro ⟨behind, item, front, hreverse, hitem, hbehind⟩
    have hitems := congrArg List.reverse hreverse
    rw [List.reverse_reverse, List.reverse_append, List.reverse_cons, List.append_assoc,
      List.singleton_append] at hitems
    exact ⟨front.reverse, item, behind.reverse, hitems, hitem, fun other hother =>
      hbehind other (List.mem_reverse.1 hother)⟩
  · rintro ⟨front, item, behind, rfl, hitem, hbehind⟩
    refine ⟨behind.reverse, item, front.reverse, ?_, hitem, fun other hother =>
      hbehind other (List.mem_reverse.1 hother)⟩
    rw [List.reverse_append, List.reverse_cons, List.append_assoc, List.singleton_append]

/-! ## The last name of a text -/

/-- What can trail behind a name and names nothing: slashes, and dots after slashes. -/
inductive Trails : List Char → Prop
  | done : Trails []
  | slash {text : List Char} (more : Trails text) : Trails ('/' :: text)
  | dot {text : List Char} (more : Trails text) : Trails ('/' :: '.' :: text)

/-- The last component that the text spells is the name, whatever trails behind it. -/
structure SpellsLast (text : List Char) (name : Piece) : Prop where
  spelled : ∃ front trail, text = front ++ name ++ trail ∧
    (front = [] ∨ front.getLast? = some '/') ∧ Trails trail
  slash_not_mem : '/' ∉ name
  ne_nil : name ≠ []
  ne_here : name ≠ ['.']
  ne_up : name ≠ ['.', '.']

theorem joinSlash_eq_flatMap (piece : Piece) (pieces : List Piece) :
    joinSlash (piece :: pieces) = piece ++ pieces.flatMap fun next => '/' :: next := by
  induction pieces generalizing piece with
  | nil => exact (List.append_nil piece).symm
  | cons next pieces ih =>
    rw [joinSlash_cons piece (List.cons_ne_nil next pieces), ih, List.flatMap_cons,
      List.cons_append]

/-- What trails behind a name is fillers, a slash in front of each. -/
theorem trails_iff {text : List Char} :
    Trails text ↔ ∃ fillers : List Piece, (∀ piece ∈ fillers, isFiller piece = true) ∧
      text = fillers.flatMap fun piece => '/' :: piece := by
  constructor
  · intro h
    induction h with
    | done => exact ⟨[], nofun, rfl⟩
    | slash _ ih =>
      obtain ⟨fillers, hfillers, rfl⟩ := ih
      exact ⟨[] :: fillers, List.forall_mem_cons.2 ⟨rfl, hfillers⟩, rfl⟩
    | dot _ ih =>
      obtain ⟨fillers, hfillers, rfl⟩ := ih
      exact ⟨['.'] :: fillers, List.forall_mem_cons.2 ⟨rfl, hfillers⟩, rfl⟩
  · rintro ⟨fillers, hfillers, rfl⟩
    induction fillers with
    | nil => exact .done
    | cons piece fillers ih =>
      obtain ⟨hpiece, hrest⟩ := List.forall_mem_cons.1 hfillers
      rw [List.flatMap_cons]
      rcases isFiller_iff.1 hpiece with rfl | rfl
      · exact .slash (ih hrest)
      · exact .dot (ih hrest)

namespace Component

theorem ofPiece?_eq_name_iff {piece name : Piece} :
    ofPiece? piece = some (.name name)
      ↔ piece = name ∧ name ≠ [] ∧ name ≠ ['.'] ∧ name ≠ ['.', '.'] := by
  unfold ofPiece?
  constructor
  · intro h
    split at h
    · cases h
    · rename_i hfiller
      split at h
      · cases h
      · rename_i hup
        cases h
        rw [isFiller_iff, not_or] at hfiller
        exact ⟨rfl, hfiller.1, hfiller.2, hup⟩
  · rintro ⟨rfl, hempty, hdot, hup⟩
    rw [isFiller_eq_false hempty hdot, if_neg Bool.false_ne_true, if_neg hup]

end Component

theorem slash_not_mem_of_isFiller {piece : Piece} (h : isFiller piece = true) : '/' ∉ piece := by
  rcases isFiller_iff.1 h with rfl | rfl <;> decide

theorem splitSlash_fillers {name : Piece} {fillers : List Piece} (hslash : '/' ∉ name)
    (hfillers : ∀ piece ∈ fillers, isFiller piece = true) :
    splitSlash (name ++ fillers.flatMap fun piece => '/' :: piece) = name :: fillers := by
  rw [← joinSlash_eq_flatMap]
  apply splitSlash_joinSlash (List.cons_ne_nil name fillers)
  exact List.forall_mem_cons.2
    ⟨hslash, fun piece hpiece => slash_not_mem_of_isFiller (hfillers piece hpiece)⟩

/-- The name is the last piece of the text that is no filler. -/
theorem spellsLast_iff {text : List Char} {name : Piece} :
    SpellsLast text name
      ↔ ∃ front fillers : List Piece, splitSlash text = front ++ name :: fillers ∧
          ofPiece? name = some (.name name) ∧ ∀ piece ∈ fillers, isFiller piece = true := by
  constructor
  · rintro ⟨⟨front, trail, rfl, hfront, htrail⟩, hslash, hnil, hhere, hup⟩
    obtain ⟨fillers, hfillers, rfl⟩ := trails_iff.1 htrail
    have hsplit := splitSlash_fillers hslash hfillers
    have hname := Component.ofPiece?_eq_name_iff.2 ⟨rfl, hnil, hhere, hup⟩
    rcases hfront with rfl | hfront
    · exact ⟨[], fillers, hsplit, hname, hfillers⟩
    · obtain ⟨body, rfl⟩ := List.getLast?_eq_some_iff.1 hfront
      refine ⟨splitSlash body, fillers, ?_, hname, hfillers⟩
      rw [List.append_assoc, List.append_assoc, List.singleton_append, splitSlash_append, hsplit]
  · rintro ⟨front, fillers, hsplit, hname, hfillers⟩
    obtain ⟨-, hnil, hhere, hup⟩ := Component.ofPiece?_eq_name_iff.1 hname
    have hmem : name ∈ splitSlash text := by
      rw [hsplit]
      exact List.mem_append_right front List.mem_cons_self
    have htrail := trails_iff.2 ⟨fillers, hfillers, rfl⟩
    have htext := joinSlash_splitSlash text
    rw [hsplit] at htext
    refine ⟨?_, not_mem_of_mem_splitSlash hmem, hnil, hhere, hup⟩
    by_cases hnone : front = []
    · rw [hnone, List.nil_append, joinSlash_eq_flatMap] at htext
      exact ⟨[], _, htext.symm, Or.inl rfl, htrail⟩
    · rw [joinSlash_append hnone (List.cons_ne_nil name fillers), joinSlash_eq_flatMap] at htext
      refine ⟨joinSlash front ++ ['/'], _, ?_, Or.inr List.getLast?_concat, htrail⟩
      rw [← htext, List.append_assoc, List.append_assoc, List.singleton_append]

/-! ## Extensions of paths -/

/-- An extension that was asked for, without the dots in front of it. -/
def undotted (extension : String) : List Char := extension.toList.dropWhile (· == '.')

namespace Path

theorem getLast?_components_iff {path : Path} {name : Piece} :
    path.components.getLast? = some (.name name)
      ↔ ((splitSlash path.text.toList).filterMap ofPiece?).getLast? = some (.name name) := by
  have hhere : Component.here ≠ .name name := nofun
  have htop : Component.top ≠ .name name := nofun
  have hbare : path.components.getLast? = some (.name name)
      ↔ path.bare.getLast? = some (.name name) := by
    rcases path.components_cases with hsame | hdot
    · rw [hsame]
    · rw [hdot, getLast?_cons_eq_some_iff hhere]
  rw [hbare, bare, bareComponents]
  split
  · rw [List.singleton_append, getLast?_cons_eq_some_iff htop]
  · rw [List.nil_append]

/-- The file name of a path is the last name that it is spelled with. -/
theorem fileName?_eq_some_iff {path : Path} {name : Piece} :
    path.fileName? = some name ↔ SpellsLast path.text.toList name := by
  have hfile : path.fileName? = some name ↔ path.components.getLast? = some (.name name) := by
    unfold fileName?
    split
    · rename_i last hlast
      rw [hlast, Option.some.injEq, Option.some.injEq, Component.name.injEq]
    · rename_i hother
      exact iff_of_false nofun (hother name)
  rw [hfile, getLast?_components_iff, getLast?_filterMap_eq_some_iff, spellsLast_iff]
  constructor
  · rintro ⟨front, piece, behind, hsplit, hpiece, hbehind⟩
    obtain ⟨rfl, -⟩ := Component.ofPiece?_eq_name_iff.1 hpiece
    exact ⟨front, behind, hsplit, hpiece, fun filler hfiller =>
      Component.ofPiece?_eq_none_iff.1 (hbehind filler hfiller)⟩
  · rintro ⟨front, fillers, hsplit, hname, hfillers⟩
    exact ⟨front, name, fillers, hsplit, hname, fun filler hfiller =>
      Component.ofPiece?_filler (hfillers filler hfiller)⟩

theorem extension?_eq_some_iff {path : Path} {extension : Piece} :
    path.extension? = some extension
      ↔ ∃ stem, SpellsLast path.text.toList (stem ++ '.' :: extension) ∧ stem ≠ [] ∧
          '.' ∉ extension := by
  simp only [extension?, Option.bind_eq_bind, Option.bind_eq_some_iff, fileName?_eq_some_iff]
  constructor
  · rintro ⟨name, hname, ⟨stem, found⟩, hsplit, hfound⟩
    obtain ⟨rfl, hdot⟩ := eq_append_of_splitLastDot? hsplit
    dsimp only at hfound
    split at hfound
    · cases hfound
    · rename_i hstem
      cases hfound
      exact ⟨stem, hname, hstem, hdot⟩
  · rintro ⟨stem, hname, hstem, hdot⟩
    exact ⟨_, hname, ⟨stem, extension⟩, splitLastDot?_append stem hdot, if_neg hstem⟩

/-- A path has one of some extensions when its last name is a stem, a dot and that extension, which
has no dot left once those in front of it are gone. -/
theorem hasExtension_iff {path : Path} {extensions : List String} :
    path.hasExtension extensions = true
      ↔ ∃ stem extension, SpellsLast path.text.toList (stem ++ '.' :: extension) ∧ stem ≠ [] ∧
          '.' ∉ extension ∧ ∃ candidate ∈ extensions, undotted candidate = extension := by
  have hany : path.hasExtension extensions = true
      ↔ ∃ extension, path.extension? = some extension ∧
          ∃ candidate ∈ extensions, undotted candidate = extension := by
    unfold hasExtension
    cases path.extension? with
    | none => exact iff_of_false Bool.false_ne_true fun ⟨_, hnone, _⟩ => nomatch hnone
    | some found =>
      dsimp only
      rw [List.any_eq_true]
      simp only [beq_iff_eq]
      constructor
      · intro hasked
        exact ⟨found, rfl, hasked⟩
      · rintro ⟨_, ⟨⟩, hasked⟩
        exact hasked
  rw [hany]
  constructor
  · rintro ⟨extension, hextension, hasked⟩
    obtain ⟨stem, hname, hstem, hdot⟩ := extension?_eq_some_iff.1 hextension
    exact ⟨stem, extension, hname, hstem, hdot, hasked⟩
  · rintro ⟨stem, extension, hname, hstem, hdot, hasked⟩
    exact ⟨extension, extension?_eq_some_iff.2 ⟨stem, hname, hstem, hdot⟩, hasked⟩

/-- A name of a stem of one character. -/
theorem spellsLast_short {extension : Piece} (hslash : '/' ∉ extension) :
    SpellsLast ('x' :: '.' :: extension) (['x'] ++ '.' :: extension) where
  spelled := ⟨[], [], (List.append_nil _).symm, Or.inl rfl, .done⟩
  slash_not_mem := by simpa using hslash
  ne_nil := nofun
  ne_here := by simp
  ne_up := by simp

/-- Some path has one of the extensions when one of them, less the dots in front, has neither a dot
nor a slash. -/
theorem exists_hasExtension_iff {extensions : List String} :
    (∃ path : Path, path.hasExtension extensions = true)
      ↔ ∃ candidate ∈ extensions, '.' ∉ undotted candidate ∧ '/' ∉ undotted candidate := by
  constructor
  · rintro ⟨path, hpath⟩
    obtain ⟨stem, extension, hname, -, hdot, candidate, hmem, rfl⟩ := hasExtension_iff.1 hpath
    refine ⟨candidate, hmem, hdot, fun hslash => hname.slash_not_mem ?_⟩
    exact List.mem_append_right stem (List.mem_cons_of_mem '.' hslash)
  · rintro ⟨candidate, hmem, hdot, hslash⟩
    refine ⟨⟨String.ofList ('x' :: '.' :: undotted candidate)⟩, hasExtension_iff.2 ?_⟩
    rw [String.toList_ofList]
    exact ⟨['x'], _, spellsLast_short hslash, nofun, hdot, candidate, hmem, rfl⟩

/-- A path has one of some extensions exactly when the last component that it is spelled with is a
name with something before its last dot and one of the extensions, less the dots in front of it,
behind that dot.  So there are extensions that no path has; a configuration that asks for these
only is valid all the same, unless they are all blank. -/
theorem hasExtension_exact :
    (∀ (path : Path) (extensions : List String),
        path.hasExtension extensions = true
          ↔ ∃ stem extension, SpellsLast path.text.toList (stem ++ '.' :: extension) ∧
              stem ≠ [] ∧ '.' ∉ extension ∧
              ∃ candidate ∈ extensions, undotted candidate = extension) ∧
      (∀ extensions : List String,
        (∃ path : Path, path.hasExtension extensions = true)
          ↔ ∃ candidate ∈ extensions, '.' ∉ undotted candidate ∧ '/' ∉ undotted candidate) ∧
      ∀ config : Config,
        (config.validate = .ok () ∧ ∀ path : Path, path.hasExtension config.extensions = false)
          ↔ (∀ entry ∈ config.ignores, Glob.Compiles entry) ∧
            (∃ candidate ∈ config.extensions, ∃ c ∈ candidate.toList, Text.isBlank c = false) ∧
            ∀ candidate ∈ config.extensions,
              '.' ∈ undotted candidate ∨ '/' ∈ undotted candidate := by
  refine ⟨fun path extensions => hasExtension_iff,
    fun extensions => exists_hasExtension_iff, ?_⟩
  intro config
  have hnever : (∀ path : Path, path.hasExtension config.extensions = false)
      ↔ ∀ candidate ∈ config.extensions,
          '.' ∈ undotted candidate ∨ '/' ∈ undotted candidate := by
    have hsome := not_congr (@exists_hasExtension_iff config.extensions)
    simp only [not_exists, not_and, Bool.not_eq_true, Decidable.not_not] at hsome
    simp only [hsome, Decidable.imp_iff_not_or, Decidable.not_not]
  have hshown : ¬ config.Extensionless
      ↔ ∃ candidate ∈ config.extensions, ∃ c ∈ candidate.toList, Text.isBlank c = false := by
    simp only [Config.Extensionless, Classical.not_forall, Bool.not_eq_true, exists_prop]
  rw [Config.validate_eq_ok_iff, hnever, hshown, and_assoc]

/-- A compound extension is asked for in vain, and one of dots only is that of a name that ends with
a dot. -/
example : (⟨"notes/a.tar.gz/."⟩ : Path).hasExtension ["tar.gz", "..gz"] = true ∧
    (⟨"a.tar.gz"⟩ : Path).hasExtension ["tar.gz"] = false ∧
    (⟨"./a."⟩ : Path).hasExtension ["..."] = true := by decide

end Path

end FeatureDigest
