import FeatureDigest.Proofs.Scan.Ending

/-!
# Narrower selections

A selection is narrower than another one when it takes no other extensions and leaves out
whatever the other one leaves out by name or by pattern.  Two walks from one root, one with the
narrower selection, stay together but for what the narrower walk has pruned: it finds what the
other one does, in the same order, less what is below a path that it leaves out or has another
extension (`Walk.trace_thins`).  So it finds no more (`Walk.trace_sublist`); and where all below
a path that is left out is left out too, it finds all that is not left out itself
(`Walk.trace_eq_filter_of_descends`).
-/

set_option autoImplicit false

namespace FeatureDigest

/-! ## Lists less some elements -/

/-- One list is another one less some of its elements, all of which can be spared. -/
inductive Thins {α : Type} (spare : α → Prop) : List α → List α → Prop
  | nil : Thins spare [] []
  | keep {x : α} {few many : List α} (rest : Thins spare few many) :
      Thins spare (x :: few) (x :: many)
  | drop {x : α} {few many : List α} (spared : spare x) (rest : Thins spare few many) :
      Thins spare few (x :: many)

namespace Thins

variable {α : Type} {spare : α → Prop} {few many less more : List α}

theorem refl (items : List α) : Thins spare items items := by
  induction items with
  | nil => exact .nil
  | cons x items ih => exact .keep ih

theorem append (h : Thins spare few many) (hmore : Thins spare less more) :
    Thins spare (few ++ less) (many ++ more) := by
  induction h with
  | nil => exact hmore
  | keep _ ih => exact .keep ih
  | drop spared _ ih => exact .drop spared ih

theorem of_forall (h : ∀ x ∈ many, spare x) : Thins spare [] many := by
  induction many with
  | nil => exact .nil
  | cons x many ih =>
    obtain ⟨hx, hmany⟩ := List.forall_mem_cons.1 h
    exact .drop hx (ih hmany)

theorem eq_nil (h : Thins spare few many) (hnone : many = []) : few = [] := by
  cases h with
  | nil => rfl
  | keep => cases hnone
  | drop => cases hnone

theorem sublist (h : Thins spare few many) : few.Sublist many := by
  induction h with
  | nil => exact .slnil
  | keep _ ih => exact .cons_cons _ ih
  | drop _ _ ih => exact .cons _ ih

/-- A filter that no spared element passes finds the same in both lists. -/
theorem filter_eq (h : Thins spare few many) {p : α → Bool}
    (hspared : ∀ x ∈ many, spare x → p x = false) : few.filter p = many.filter p := by
  induction h with
  | nil => rfl
  | keep _ ih =>
    rw [List.filter_cons, List.filter_cons,
      ih fun x hx => hspared x (List.mem_cons_of_mem _ hx)]
  | drop spared _ ih =>
    rw [List.filter_cons_of_neg (by simp [hspared _ List.mem_cons_self spared]),
      ih fun x hx => hspared x (List.mem_cons_of_mem _ hx)]

end Thins

/-! ## Narrower selections -/

namespace Path

theorem hasExtension_mono {path : Path} {few many : List String} (h : few ⊆ many)
    (hpath : path.hasExtension few = true) : path.hasExtension many = true := by
  unfold hasExtension at hpath ⊢
  cases hextension : path.extension? with
  | none =>
    rw [hextension] at hpath
    cases hpath
  | some extension =>
    rw [hextension] at hpath
    obtain ⟨candidate, hmem, hsame⟩ := List.any_eq_true.1 hpath
    exact List.any_eq_true.2 ⟨candidate, h hmem, hsame⟩

end Path

namespace Selection

/-- A selection takes only extensions that another one takes, and leaves out all that this
leaves out. -/
structure Narrower (narrow wide : Selection) : Prop where
  extensions : narrow.extensions ⊆ wide.extensions
  patterns : wide.patterns ⊆ narrow.patterns
  paths : wide.paths ⊆ narrow.paths

/-- A selection is narrower than the one that takes its extensions and leaves out nothing. -/
theorem narrower_all (selection : Selection) :
    selection.Narrower ⟨selection.extensions, [], []⟩ :=
  ⟨List.Subset.refl _, List.nil_subset _, List.nil_subset _⟩

theorem Narrower.ignores {narrow wide : Selection} (h : narrow.Narrower wide) {root path : Path}
    (hpath : wide.ignores root path = true) : narrow.ignores root path = true := by
  simp only [Selection.ignores, Bool.or_eq_true, List.any_eq_true] at hpath ⊢
  rcases hpath with ⟨ignored, hmem, hstarts⟩ | ⟨pattern, hmem, hmatches⟩
  · exact Or.inl ⟨ignored, h.paths hmem, hstarts⟩
  · exact Or.inr ⟨pattern, h.patterns hmem, hmatches⟩

theorem Narrower.clear {narrow wide : Selection} (h : narrow.Narrower wide) {root path : Path}
    (hpath : narrow.ignores root path = false) : wide.ignores root path = false := by
  cases hwide : wide.ignores root path with
  | false => rfl
  | true =>
    rw [h.ignores hwide] at hpath
    cases hpath

/-- Names below the root lead to a path that is left out, or to something below one. -/
def Shut (selection : Selection) (root : Path) (names : Place) : Prop :=
  ∃ front, front <+: names ∧ selection.ignores root (root.under front) = true

theorem Shut.append {selection : Selection} {root : Path} {names : Place}
    (h : selection.Shut root names) (more : Place) : selection.Shut root (names ++ more) := by
  obtain ⟨front, hfront, hignored⟩ := h
  exact ⟨front, hfront.trans (List.prefix_append names more), hignored⟩

end Selection

namespace Walk

variable {tree : FileTree} {narrow wide : Selection} {root : Path}

/-! ## Two walks -/

/-- A pending item stands for some names below the root, if it can be reached. -/
def Stands (root : Path) (told : Place → Prop) (item : Pending) : Prop :=
  ∀ path, item.path? = some path → ∃ names, path = root.under names ∧ told names

theorem stands_below {told : Place → Prop} {names : Place}
    (h : ∀ name, told (names ++ [name])) :
    ∀ item ∈ below tree (root.under names), Stands root told item := by
  intro item hitem path hpath
  rcases mem_below hitem with ⟨name, kind, rfl⟩ | ⟨fault, rfl⟩
  · cases hpath
    exact ⟨names ++ [name], (root.under_append names [name]).symm, h name⟩
  · cases hpath

/-- What was found stands for a path that is not left out. -/
def clear (selection : Selection) (root : Path) (seen : Path × FeatureFile) : Bool :=
  !selection.ignores root seen.1

/-- What one walk finds and a narrower one may not: it is below a path that the narrower one
leaves out, or has another extension. -/
def Spared (narrow : Selection) (root : Path) (seen : Path × FeatureFile) : Prop :=
  (∃ names, seen.1 = root.under names ∧ narrow.Shut root names) ∨
    seen.1.hasExtension narrow.extensions = false

/-- A file that the narrower selection takes is taken by the other one, and a file that only the
other one takes has another extension. -/
theorem featureFile?_narrower (h : narrow.Narrower wide) (path : Path) :
    featureFile? tree narrow path = featureFile? tree wide path ∨
      featureFile? tree narrow path = none ∧ path.hasExtension narrow.extensions = false := by
  cases hextension : path.hasExtension narrow.extensions with
  | true =>
    have hwide := Path.hasExtension_mono h.extensions hextension
    exact Or.inl (by rw [featureFile?, featureFile?, hextension, hwide])
  | false => exact Or.inr ⟨by rw [featureFile?, hextension, Bool.false_and]; rfl, rfl⟩

/-- What the walk with the narrower selection has pending, next to what the other one has:
items below paths that are left out may be missing. -/
structure Keeps (narrow : Selection) (root : Path) (few many : List Pending) : Prop where
  thins : Thins (Stands root (narrow.Shut root)) few many
  stand : ∀ item ∈ many, Stands root (fun _ => True) item

theorem keeps_start (narrow : Selection) (root : Path) :
    Keeps narrow root [.root root] [.root root] := by
  refine ⟨.refl _, fun item hitem path hpath => ?_⟩
  cases List.mem_singleton.1 hitem
  cases hpath
  exact ⟨[], rfl, trivial⟩

/-- The walk with the other selection reaches an item that the narrower one does not have: it
finds nothing that cannot be spared. -/
theorem Keeps.step_missing {item : Pending} {few many : List Pending} {faults : List WalkFault}
    {found : Option FeatureFile} {after : Walk} (h : Keeps narrow root few many)
    (hshut : Stands root (narrow.Shut root) item)
    (hstep : step tree ⟨root, wide, item :: many, faults⟩ = some (found, after)) :
    ∃ all met, after = ⟨root, wide, all, met⟩ ∧ Keeps narrow root few all ∧
      ∀ seen ∈ ((⟨root, wide, item :: many, faults⟩ : Walk).sighting? found).toList,
        Spared narrow root seen := by
  obtain ⟨_, _, next, met, hpending, rfl, hnext, -⟩ := step_cases hstep
  cases hpending
  have hbelow : ∀ other ∈ next, Stands root (narrow.Shut root) other := by
    rcases hnext with rfl | ⟨path, hpath, rfl⟩
    · exact nofun
    · obtain ⟨names, rfl, hnames⟩ := hshut path hpath
      exact stands_below fun name => hnames.append [name]
  refine ⟨_, _, rfl, ⟨(Thins.of_forall hbelow).append h.thins, ?_⟩, ?_⟩
  · refine List.forall_mem_append.2 ⟨fun other hother path hpath => ?_, h.stand⟩
    obtain ⟨names, hunder, -⟩ := hbelow other hother path hpath
    exact ⟨names, hunder, trivial⟩
  · intro seen hseen
    obtain ⟨path, hpath, hfile⟩ := Option.bind_eq_some_iff.1 (Option.mem_toList.1 hseen)
    obtain ⟨names, rfl, hnames⟩ := hshut path hpath
    obtain ⟨file, -, rfl⟩ := Option.map_eq_some_iff.1 hfile
    exact Or.inl ⟨names, rfl, hnames⟩

/-- Both walks reach the same item: the narrower one finds what the other one does, or what the
other one finds can be spared. -/
theorem Keeps.step_both {item : Pending} {few many : List Pending} {faults met : List WalkFault}
    (hnarrower : narrow.Narrower wide) (h : Keeps narrow root few many)
    (hstands : Stands root (fun _ => True) item) :
    ∃ found fewer lacking other all others,
      step tree ⟨root, narrow, item :: few, met⟩
        = some (found, ⟨root, narrow, fewer, lacking⟩) ∧
      step tree ⟨root, wide, item :: many, faults⟩
        = some (other, ⟨root, wide, all, others⟩) ∧
      Keeps narrow root fewer all ∧
      Thins (Spared narrow root)
        ((⟨root, narrow, item :: few, met⟩ : Walk).sighting? found).toList
        ((⟨root, wide, item :: many, faults⟩ : Walk).sighting? other).toList := by
  cases hreach : reach tree item with
  | error fault =>
    refine ⟨none, _, _, none, _, _, step_of_error hreach _ _, step_of_error hreach _ _, h, ?_⟩
    rw [sighting?_none, sighting?_none]
    exact .nil
  | ok reached =>
    obtain ⟨names, hunder, -⟩ := hstands _ (reach_ok hreach).1
    have hbelow {told : Place → Prop} (htold : ∀ name, told (names ++ [name])) :
        ∀ other ∈ reached.below, Stands root told other := by
      intro other hother
      exact stands_below htold other (hunder ▸ mem_below_of_reach hreach hother)
    have hstand : ∀ other ∈ reached.below ++ many, Stands root (fun _ => True) other :=
      List.forall_mem_append.2 ⟨hbelow fun _ => trivial, h.stand⟩
    cases hignores : narrow.ignores root reached.path with
    | true =>
      have hshut : narrow.Shut root names := ⟨names, List.prefix_rfl, hunder ▸ hignores⟩
      have hmissing : Thins (Stands root (narrow.Shut root)) [] reached.below :=
        .of_forall (hbelow fun name => hshut.append [name])
      have hnarrow := step_of_ignores hreach hignores few met
      cases hwide : wide.ignores root reached.path with
      | true =>
        refine ⟨_, _, _, _, _, _, hnarrow, step_of_ignores hreach hwide many faults, ?_, ?_⟩
        · split
          · exact h
          · exact ⟨(Thins.refl _).append h.thins, hstand⟩
        · rw [sighting?_none, sighting?_none]
          exact .nil
      | false =>
        refine ⟨_, _, _, _, _, _, hnarrow, step_of_clear hreach hwide many faults, ?_, ?_⟩
        · refine ⟨?_, hstand⟩
          split
          · exact hmissing.append h.thins
          · exact (Thins.refl _).append h.thins
        · rw [sighting?_none, sighting?_of_reach rfl hreach]
          apply Thins.of_forall
          intro seen hseen
          obtain ⟨file, -, rfl⟩ := Option.map_eq_some_iff.1 (Option.mem_toList.1 hseen)
          exact Or.inl ⟨names, hunder, hshut⟩
    | false =>
      have hnarrow := step_of_clear hreach hignores few met
      have hwide := step_of_clear hreach (hnarrower.clear hignores) many faults
      refine ⟨_, _, _, _, _, _, hnarrow, hwide, ⟨(Thins.refl _).append h.thins, hstand⟩, ?_⟩
      rw [sighting?_of_reach rfl hreach, sighting?_of_reach rfl hreach]
      rcases featureFile?_narrower hnarrower reached.path with hsame | ⟨hnone, hextension⟩
      · rw [hsame]
        exact .refl _
      · rw [hnone]
        apply Thins.of_forall
        intro seen hseen
        obtain ⟨file, -, rfl⟩ := Option.map_eq_some_iff.1 (Option.mem_toList.1 hseen)
        exact Or.inr hextension

/-- However many steps the walk with the other selection takes, the narrower one keeps up with
it in some steps of its own. -/
theorem Keeps.traceWithin (hnarrower : narrow.Narrower wide) (tree : FileTree) (steps : Nat)
    {few many : List Pending} (h : Keeps narrow root few many) (met faults : List WalkFault) :
    ∃ fewer, Thins (Spared narrow root)
        ((⟨root, narrow, few, met⟩ : Walk).traceWithin tree fewer).1
        ((⟨root, wide, many, faults⟩ : Walk).traceWithin tree steps).1 ∧
      Keeps narrow root
        ((⟨root, narrow, few, met⟩ : Walk).traceWithin tree fewer).2.pending
        ((⟨root, wide, many, faults⟩ : Walk).traceWithin tree steps).2.pending := by
  induction steps generalizing few many met faults with
  | zero => exact ⟨0, .nil, h⟩
  | succ steps ih =>
    obtain ⟨hthins, hstand⟩ := h
    cases hthins with
    | nil => exact ⟨0, .nil, .nil, hstand⟩
    | @drop item few many hshut hrest =>
      obtain ⟨hitem, hmany⟩ := List.forall_mem_cons.1 hstand
      cases hstep : step tree ⟨root, wide, item :: many, faults⟩ with
      | none =>
        rw [traceWithin_of_step_eq_none hstep]
        exact ⟨0, .nil, .drop hshut hrest, hstand⟩
      | some reached =>
        obtain ⟨found, after⟩ := reached
        obtain ⟨all, others, rfl, hkeeps, hspared⟩ :=
          Keeps.step_missing ⟨hrest, hmany⟩ hshut hstep
        obtain ⟨fewer, hseen, hpending⟩ := ih hkeeps met others
        refine ⟨fewer, ?_, ?_⟩
        · rw [traceWithin_succ hstep]
          exact (Thins.of_forall hspared).append hseen
        · rw [traceWithin_succ hstep]
          exact hpending
    | @keep item few many hrest =>
      obtain ⟨hitem, hmany⟩ := List.forall_mem_cons.1 hstand
      obtain ⟨found, kept, lacking, other, all, others, hnarrow, hwide, hkeeps, hsame⟩ :=
        Keeps.step_both hnarrower ⟨hrest, hmany⟩ hitem
      obtain ⟨fewer, hseen, hpending⟩ := ih hkeeps lacking others
      refine ⟨fewer + 1, ?_, ?_⟩
      · rw [traceWithin_succ hnarrow, traceWithin_succ hwide]
        exact hsame.append hseen
      · rw [traceWithin_succ hnarrow, traceWithin_succ hwide]
        exact hpending

/-- A walk with a narrower selection finds what the other one does, less what can be spared. -/
theorem trace_thins (h : narrow.Narrower wide) (tree : FileTree) (root : Path) :
    Thins (Spared narrow root) ((start root narrow).trace tree)
      ((start root wide).trace tree) := by
  obtain ⟨fewer, hseen, hpending⟩ :=
    (keeps_start narrow root).traceWithin h tree ((start root wide).enough tree) [] []
  have hwide := pending_traceWithin_enough tree (start root wide)
  have hend : ((start root narrow).traceWithin tree fewer).2.pending = [] :=
    hpending.thins.eq_nil hwide
  rw [trace_of_pending_nil hend]
  exact hseen

theorem trace_sublist (h : narrow.Narrower wide) (tree : FileTree) (root : Path) :
    ((start root narrow).trace tree).Sublist ((start root wide).trace tree) :=
  (trace_thins h tree root).sublist

theorem drain_sublist (h : narrow.Narrower wide) (tree : FileTree) (root : Path) :
    ((start root narrow).drain tree).1.Sublist ((start root wide).drain tree).1 := by
  rw [drain_eq_trace, drain_eq_trace]
  exact (trace_sublist h tree root).map Prod.snd

/-- Nothing that a walk finds is left out itself. -/
theorem trace_not_ignored (tree : FileTree) (root : Path) (selection : Selection) :
    ∀ seen ∈ (start root selection).trace tree, selection.ignores root seen.1 = false := by
  apply trace_of_step (fun walk => walk.root = root ∧ walk.selection = selection)
    (fun path _ => selection.ignores root path = false) _ _ ⟨rfl, rfl⟩
  · rintro walk found after ⟨hroot, hselection⟩ hstep
    obtain ⟨_, _, _, _, _, rfl, _, _⟩ := step_cases hstep
    exact ⟨hroot, hselection⟩
  · rintro walk found after path file ⟨rfl, rfl⟩ hstep hsighting
    obtain ⟨hahead, hfile⟩ := sighting?_eq_some_iff.1 hsighting
    obtain ⟨other, hother, hclear, _⟩ := sighting?_of_step hstep hfile
    rw [(sighting?_eq_some_iff.1 hother).1] at hahead
    cases hahead
    exact hclear

/-- Where all below a path that is left out is left out too, a walk with a narrower selection
finds what the other one does, less what is left out itself. -/
theorem trace_eq_filter_of_descends (h : narrow.Narrower wide)
    (hextensions : narrow.extensions = wide.extensions)
    (hdescends : ∀ names, narrow.Shut root names →
      narrow.ignores root (root.under names) = true) :
    (start root narrow).trace tree
      = ((start root wide).trace tree).filter (clear narrow root) := by
  have hspared : ∀ seen ∈ (start root wide).trace tree, Spared narrow root seen →
      clear narrow root seen = false := by
    intro seen hseen hspare
    rcases hspare with ⟨names, hunder, hshut⟩ | hextension
    · rw [clear, hunder, hdescends names hshut]
      rfl
    · have hfile := (trace_under tree root wide seen hseen).2
      rw [featureFile?, ← hextensions, hextension] at hfile
      cases hfile
  calc (start root narrow).trace tree
      = ((start root narrow).trace tree).filter (clear narrow root) := by
        refine (List.filter_eq_self.2 fun seen hseen => ?_).symm
        rw [clear, trace_not_ignored tree root narrow seen hseen]
        rfl
    _ = _ := (trace_thins h tree root).filter_eq hspared

end Walk

end FeatureDigest
