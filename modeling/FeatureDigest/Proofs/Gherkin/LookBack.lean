import FeatureDigest.Gherkin.Digest

/-!
# What a digest says, without a context

Reading a feature file carries a context from line to line.  Here the same digest is
said of each line by itself: a continuation belongs to the kind of the nearest step
line before it, however far back that is.

The bridge is `stated`, the texts of one kind that lines state from a context on.  It
goes through the lines one by one (`stated_cons`), and the context it carries is the
kind of the nearest step line (`contextOf_eq_nearestStep?`).
-/

set_option autoImplicit false

namespace FeatureDigest.Gherkin

open FeatureDigest.Text

/-! ## Lines by themselves -/

/-- What follows a keyword in a line that starts with it, blanks before it aside. -/
def after? (keyword line : String) : Option String :=
  let text := unindent line.toList
  if keyword.toList.isPrefixOf text then
    some (String.ofList (text.drop keyword.toList.length))
  else none

/-- The keyword of a kind of step. -/
def Step.word : Step → String
  | .state => "Given "
  | .action => "When "
  | .outcome => "Then "

/-- The kind of step that a line states by a keyword of its own. -/
def ownStep? (line : String) : Option Step :=
  [Step.state, Step.action, Step.outcome].find? fun step => (after? step.word line).isSome

/-- The kind of the last step line among some lines. -/
def nearestStep? (lines : List String) : Option Step := lines.reverse.findSome? ownStep?

/-- What a continuation says. -/
def continued? (line : String) : Option String :=
  (after? "And " line).or (after? "But " line)

/-- The text that a line states as a step of a kind, when it stands after other lines. -/
def stepText? (step : Step) (before : List String) (line : String) : Option String :=
  match after? step.word line with
  | some text => some text
  | none => if nearestStep? before = some step then continued? line else none

/-- The lines, each with all that stands before it. -/
def placed (before : List String) : List String → List (List String × String)
  | [] => []
  | line :: lines => (before, line) :: placed (before ++ [line]) lines

/-- The texts of the steps of a kind, in the order of the lines. -/
def stepTexts (step : Step) (lines : List String) : List String :=
  (placed [] lines).filterMap fun entry => stepText? step entry.1 entry.2

theorem after?_eq_map (keyword line : String) :
    after? keyword line
      = (afterKeyword? keyword.toList (unindent line.toList)).map String.ofList := by
  unfold after?
  generalize unindent line.toList = text
  cases h : afterKeyword? keyword.toList text with
  | some rest =>
    rw [afterKeyword?_eq_some_iff] at h
    simp [h]
  | none =>
    have hnot : ¬ keyword.toList <+: text := by
      rintro ⟨rest, hrest⟩
      rw [afterKeyword?_eq_some_iff.2 hrest.symm] at h
      simp at h
    simp [hnot]

theorem word_toList (step : Step) : step.word.toList = (Kind.step step).keyword := by
  cases step <;> rfl

theorem continued?_eq_map (line : String) :
    continued? line = (afterContinuation? (unindent line.toList)).map String.ofList := by
  unfold continued? afterContinuation? continuations
  rw [after?_eq_map, after?_eq_map]
  simp only [List.findSome?_cons, List.findSome?_nil]
  cases h : afterKeyword? "And ".toList (unindent line.toList) with
  | some rest => simp
  | none =>
    cases afterKeyword? "But ".toList (unindent line.toList) <;> simp

/-! ## One kind for each line -/

/-- The character that the keyword of a kind starts with. -/
def Kind.initial : Kind → Char
  | .feature => 'F'
  | .scenario => 'S'
  | .step .state => 'G'
  | .step .action => 'W'
  | .step .outcome => 'T'

theorem head?_of_afterKeyword? {kind : Kind} {text rest : List Char}
    (h : afterKeyword? kind.keyword text = some rest) : text.head? = some kind.initial := by
  rw [afterKeyword?_eq_some_iff] at h
  rcases kind with _ | _ | (_ | _ | _) <;> rw [h] <;> rfl

theorem head?_of_afterContinuation? {text rest : List Char}
    (h : afterContinuation? text = some rest) :
    text.head? = some 'A' ∨ text.head? = some 'B' := by
  obtain ⟨keyword, hmem, hrest⟩ := List.exists_of_findSome?_eq_some h
  rw [afterKeyword?_eq_some_iff] at hrest
  simp only [continuations, List.mem_cons, List.not_mem_nil, or_false] at hmem
  rcases hmem with rfl | rfl
  · exact Or.inl (by rw [hrest]; rfl)
  · exact Or.inr (by rw [hrest]; rfl)

theorem Kind.initial_injective {first second : Kind} (h : first.initial = second.initial) :
    first = second := by
  revert h
  rcases first with _ | _ | (_ | _ | _) <;> rcases second with _ | _ | (_ | _ | _) <;>
    decide

theorem Kind.initial_ne_continuation (kind : Kind) :
    kind.initial ≠ 'A' ∧ kind.initial ≠ 'B' := by
  rcases kind with _ | _ | (_ | _ | _) <;> decide

/-- A continuation has no keyword of its own. -/
theorem afterKeyword?_of_afterContinuation? {text rest : List Char}
    (h : afterContinuation? text = some rest) (kind : Kind) :
    afterKeyword? kind.keyword text = none := by
  cases hown : afterKeyword? kind.keyword text with
  | none => rfl
  | some own =>
    have hhead := head?_of_afterKeyword? hown
    rcases head?_of_afterContinuation? h with ha | hb
    · rw [hhead] at ha
      exact absurd (Option.some.inj ha) kind.initial_ne_continuation.1
    · rw [hhead] at hb
      exact absurd (Option.some.inj hb) kind.initial_ne_continuation.2

/-- A text without a keyword of its own states an item only as a continuation, and then
of the kind in the context. -/
theorem Kind.text?_eq_some_iff {kind : Kind} {context : Option Step}
    {text rest : List Char} :
    kind.text? context text = some rest ↔
      afterKeyword? kind.keyword text = some rest ∨
        ∃ step, kind = .step step ∧ context = some step ∧
          afterContinuation? text = some rest := by
  unfold Kind.text?
  cases hown : afterKeyword? kind.keyword text with
  | some own =>
    constructor
    · intro h
      exact Or.inl h
    · rintro (h | ⟨_, _, _, h⟩)
      · exact h
      · rw [afterKeyword?_of_afterContinuation? h kind] at hown
        simp at hown
  | none =>
    cases kind <;> cases context <;> simp [eq_comm]

/-- What follows the keyword of a kind is stated in every context. -/
theorem Kind.text?_of_keyword (kind : Kind) {text rest : List Char}
    (h : afterKeyword? kind.keyword text = some rest) (context : Option Step) :
    kind.text? context text = some rest :=
  Kind.text?_eq_some_iff.2 (Or.inl h)

/-- No text states items of two kinds. -/
theorem Kind.text?_unique {first second : Kind} {context : Option Step}
    {text rest other : List Char} (hfirst : first.text? context text = some rest)
    (hsecond : second.text? context text = some other) : first = second := by
  rw [Kind.text?_eq_some_iff] at hfirst hsecond
  rcases hfirst with hf | ⟨step, rfl, hstep, hf⟩
  · rcases hsecond with hs | ⟨_, _, _, hs⟩
    · have hhead := head?_of_afterKeyword? hf
      rw [head?_of_afterKeyword? hs] at hhead
      exact Kind.initial_injective (Option.some.inj hhead).symm
    · rw [afterKeyword?_of_afterContinuation? hs first] at hf
      simp at hf
  · rcases hsecond with hs | ⟨other, rfl, hother, _⟩
    · rw [afterKeyword?_of_afterContinuation? hf second] at hs
      simp at hs
    · rw [hstep] at hother
      rw [Option.some.inj hother]

/-- The item of a text is what the text states, whatever kind is asked for and in whatever order
the kinds are tried. -/
theorem itemBy?_eq_some_iff {order : List Kind} (hall : ∀ kind, kind ∈ order)
    {context : Option Step} {text rest : List Char} {kind : Kind} :
    itemBy? order context text = some ⟨kind, rest⟩ ↔ kind.text? context text = some rest := by
  unfold itemBy?
  constructor
  · intro h
    obtain ⟨found, _, hfound⟩ := List.exists_of_findSome?_eq_some h
    rw [Option.map_eq_some_iff] at hfound
    obtain ⟨_, htext, hitem⟩ := hfound
    cases hitem
    exact htext
  · intro h
    cases hitem : order.findSome? fun kind =>
        (kind.text? context text).map fun rest => Item.mk kind rest with
    | none =>
      rw [List.findSome?_eq_none_iff] at hitem
      have hnone := hitem kind (hall kind)
      rw [h] at hnone
      simp at hnone
    | some item =>
      obtain ⟨found, _, hfound⟩ := List.exists_of_findSome?_eq_some hitem
      rw [Option.map_eq_some_iff] at hfound
      obtain ⟨text', htext, rfl⟩ := hfound
      have hkind := Kind.text?_unique htext h
      subst hkind
      rw [htext] at h
      rw [Option.some.inj h]

theorem item?_eq_some_iff {context : Option Step} {text rest : List Char} {kind : Kind} :
    item? context text = some ⟨kind, rest⟩ ↔ kind.text? context text = some rest :=
  itemBy?_eq_some_iff Kind.mem_all

theorem textOf?_item (kind : Kind) (context : Option Step) (line : String) :
    Digest.textOf? kind ⟨line, item? context (unindent line.toList)⟩
      = (kind.text? context (unindent line.toList)).map String.ofList := by
  unfold Digest.textOf?
  cases hitem : item? context (unindent line.toList) with
  | none =>
    cases htext : kind.text? context (unindent line.toList) with
    | none => simp
    | some rest =>
      rw [item?_eq_some_iff.2 htext] at hitem
      simp at hitem
  | some item =>
    obtain ⟨found, rest⟩ := item
    rw [item?_eq_some_iff] at hitem
    by_cases hkind : found = kind
    · subst hkind
      simp [hitem]
    · cases htext : kind.text? context (unindent line.toList) with
      | none => simp [hkind]
      | some other => exact absurd (Kind.text?_unique hitem htext) hkind

/-! ## The context of a line -/

theorem ownStep?_eq_some_iff {line : String} {step : Step} :
    ownStep? line = some step ↔ (after? step.word line).isSome = true := by
  have hown (other : Step) (h : (after? other.word line).isSome = true) :
      ∃ rest, (Kind.step other).text? none (unindent line.toList) = some rest := by
    rw [after?_eq_map, word_toList, Option.isSome_map, Option.isSome_iff_exists] at h
    obtain ⟨rest, hrest⟩ := h
    exact ⟨rest, (Kind.step other).text?_of_keyword hrest none⟩
  have hsome (other : Step) (h : ownStep? line = some other) :
      (after? other.word line).isSome = true :=
    List.find?_some (p := fun step : Step => (after? step.word line).isSome) h
  constructor
  · intro h
    exact hsome step h
  · intro h
    cases hfound : ownStep? line with
    | none =>
      have hnone := List.find?_eq_none.1 hfound step (by cases step <;> simp)
      exact absurd h hnone
    | some other =>
      obtain ⟨rest, hrest⟩ := hown other (hsome other hfound)
      obtain ⟨rest', hrest'⟩ := hown step h
      have hkind := Kind.text?_unique hrest hrest'
      cases hkind
      rfl

/-- A line without a keyword of its own for a step leaves the context alone; any other
line sets it. -/
theorem contextAfter_item (context : Option Step) (line : String) :
    contextAfter context (item? context (unindent line.toList))
      = (ownStep? line).or context := by
  cases hown : ownStep? line with
  | some step =>
    rw [ownStep?_eq_some_iff, after?_eq_map, word_toList, Option.isSome_map,
      Option.isSome_iff_exists] at hown
    obtain ⟨rest, hrest⟩ := hown
    have hitem := item?_eq_some_iff.2 ((Kind.step step).text?_of_keyword hrest context)
    rw [hitem]
    rfl
  | none =>
    cases hitem : item? context (unindent line.toList) with
    | none => rfl
    | some item =>
      obtain ⟨kind, rest⟩ := item
      cases kind with
      | feature => rfl
      | scenario => rfl
      | step step =>
        rw [item?_eq_some_iff, Kind.text?_eq_some_iff] at hitem
        rcases hitem with h | ⟨_, hkind, hcontext, _⟩
        · have hstep : ownStep? line = some step := by
            rw [ownStep?_eq_some_iff, after?_eq_map, word_toList, h]
            rfl
          rw [hown] at hstep
          simp at hstep
        · cases hkind
          exact hcontext.symm

theorem nearestStep?_cons (line : String) (lines : List String) :
    nearestStep? (line :: lines) = (nearestStep? lines).or (ownStep? line) := by
  unfold nearestStep?
  rw [List.reverse_cons, List.findSome?_append, List.findSome?_singleton]

theorem nearestStep?_append_singleton (lines : List String) (line : String) :
    nearestStep? (lines ++ [line]) = (ownStep? line).or (nearestStep? lines) := by
  unfold nearestStep?
  rw [List.reverse_append, List.reverse_singleton, List.singleton_append,
    List.findSome?_cons]
  cases ownStep? line <;> rfl

/-! ## The texts of one kind -/

/-- The text that a line states as an item of a kind in a context. -/
def itemText? (kind : Kind) (context : Option Step) (line : String) : Option String :=
  (kind.text? context (unindent line.toList)).map String.ofList

/-- The texts of one kind that lines state from a context on. -/
def stated (context : Option Step) (kind : Kind) (lines : List String) : List String :=
  (entriesFrom Kind.all context lines).filterMap (Digest.textOf? kind)

theorem bucket_ofLines (lines : List String) (kind : Kind) :
    (Digest.ofLines lines).bucket kind = stated none kind lines :=
  Digest.bucket_ofEntries kind _

theorem text?_nil (kind : Kind) (context : Option Step) : kind.text? context [] = none := by
  cases h : kind.text? context [] with
  | none => rfl
  | some rest =>
    rw [Kind.text?_eq_some_iff] at h
    rcases h with h | ⟨_, _, _, h⟩
    · simpa using head?_of_afterKeyword? h
    · simpa using head?_of_afterContinuation? h

theorem ownStep?_of_unindent_eq_nil {line : String} (h : unindent line.toList = []) :
    ownStep? line = none := by
  cases hown : ownStep? line with
  | none => rfl
  | some step =>
    rw [ownStep?_eq_some_iff, after?_eq_map, word_toList, h, Option.isSome_map,
      Option.isSome_iff_exists] at hown
    obtain ⟨rest, hrest⟩ := hown
    simpa using head?_of_afterKeyword? hrest

/-- What one line adds to the texts of a kind, and the context that it leaves.  A blank
line adds nothing and leaves the context alone, like any line without a keyword. -/
theorem stated_cons (context : Option Step) (kind : Kind) (line : String)
    (lines : List String) :
    stated context kind (line :: lines)
      = (itemText? kind context line).toList
        ++ stated ((ownStep? line).or context) kind lines := by
  by_cases hblank : unindent line.toList = []
  · have hentries : entriesFrom Kind.all context (line :: lines)
        = entriesFrom Kind.all context lines := by
      simp [entriesFrom, hblank]
    rw [stated, hentries, ownStep?_of_unindent_eq_nil hblank, itemText?, hblank, text?_nil]
    rfl
  · have hentries : entriesFrom Kind.all context (line :: lines)
        = ⟨line, item? context (unindent line.toList)⟩
          :: entriesFrom Kind.all
            (contextAfter context (item? context (unindent line.toList))) lines := by
      simp [entriesFrom, hblank, item?]
    rw [stated, hentries, contextAfter_item, List.filterMap_cons, textOf?_item, ← itemText?]
    cases itemText? kind context line <;> rfl

/-- Lines read after others start from the context that those leave. -/
theorem stated_append (context : Option Step) (kind : Kind) (first second : List String) :
    stated context kind (first ++ second)
      = stated context kind first
        ++ stated ((nearestStep? first).or context) kind second := by
  induction first generalizing context with
  | nil => rfl
  | cons line first ih =>
    rw [List.cons_append, stated_cons, stated_cons, ih, nearestStep?_cons, Option.or_assoc,
      List.append_assoc]

/-- The texts of a kind, line by line, the context of a line being the kind of the
nearest step line before it. -/
theorem stated_eq_filterMap_placed (kind : Kind) (before lines : List String) :
    stated (nearestStep? before) kind lines
      = (placed before lines).filterMap fun entry =>
          itemText? kind (nearestStep? entry.1) entry.2 := by
  induction lines generalizing before with
  | nil => rfl
  | cons line lines ih =>
    rw [stated_cons, ← nearestStep?_append_singleton, ih]
    simp only [placed, List.filterMap_cons]
    cases itemText? kind (nearestStep? before) line <;> rfl

theorem itemText?_step (step : Step) (before : List String) (line : String) :
    itemText? (.step step) (nearestStep? before) line = stepText? step before line := by
  unfold itemText? stepText? Kind.text?
  rw [after?_eq_map, word_toList, continued?_eq_map]
  cases afterKeyword? (Kind.step step).keyword (unindent line.toList) with
  | some rest => rfl
  | none =>
    cases nearestStep? before with
    | none => rfl
    | some current => by_cases h : current = step <;> simp [h]

/-- A header says the same whatever step came before it. -/
theorem itemText?_of_ne_step {kind : Kind} (h : ∀ step, kind ≠ .step step)
    (context : Option Step) (line : String) :
    itemText? kind context line = after? (String.ofList kind.keyword) line := by
  rw [after?_eq_map, itemText?, String.toList_ofList]
  unfold Kind.text?
  cases afterKeyword? kind.keyword (unindent line.toList) with
  | some rest => rfl
  | none =>
    cases kind with
    | feature => rfl
    | scenario => rfl
    | step step => exact absurd rfl (h step)

/-- A header's bucket reads every line by itself. -/
theorem stated_of_ne_step {kind : Kind} (h : ∀ step, kind ≠ .step step)
    (context : Option Step) (lines : List String) :
    stated context kind lines = lines.filterMap (after? (String.ofList kind.keyword)) := by
  induction lines generalizing context with
  | nil => rfl
  | cons line lines ih =>
    rw [stated_cons, ih, itemText?_of_ne_step h, List.filterMap_cons]
    cases after? (String.ofList kind.keyword) line <;> rfl

/-- The bucket of a kind of step reads every line with the lines before it. -/
theorem stated_step (step : Step) (lines : List String) :
    stated none (.step step) lines = stepTexts step lines := by
  have h := stated_eq_filterMap_placed (.step step) [] lines
  simp only [itemText?_step] at h
  exact h

theorem lines_entriesFrom (context : Option Step) (lines : List String) :
    (entriesFrom Kind.all context lines).map Entry.line
      = lines.filter fun line => !allBlank line.toList := by
  induction lines generalizing context with
  | nil => rfl
  | cons line lines ih =>
    by_cases hblank : unindent line.toList = []
    · have hall := (unindent_eq_nil_iff line.toList).1 hblank
      simp [entriesFrom, hblank, hall, ih]
    · have hall : allBlank line.toList = false := by
        rw [← Bool.not_eq_true, ← unindent_eq_nil_iff]
        exact hblank
      simp [entriesFrom, hblank, hall, ih]

/-- A continuation that no step line stands before states nothing and leaves no context. -/
theorem itemText?_of_continued {line : String} (h : (continued? line).isSome = true)
    (kind : Kind) : itemText? kind none line = none ∧ ownStep? line = none := by
  rw [continued?_eq_map, Option.isSome_map, Option.isSome_iff_exists] at h
  obtain ⟨rest, hrest⟩ := h
  have hkeyword := afterKeyword?_of_afterContinuation? hrest
  constructor
  · unfold itemText? Kind.text?
    rw [hkeyword kind]
    cases kind <;> rfl
  · cases hown : ownStep? line with
    | none => rfl
    | some step =>
      rw [ownStep?_eq_some_iff, after?_eq_map, word_toList, hkeyword (.step step)] at hown
      simp at hown

/-! ## The meaning of a digest -/

/-- A digest keeps the lines that are not blank, as they are; a bucket of headers holds
what follows the header's keyword in each line that starts with it; and a bucket of steps
holds what follows the step's keyword, or a continuation for which the nearest step line
before it is of the kind.  A continuation that no step line stands before is kept as a
line, and no bucket would change without it. -/
theorem ofLines_eq_lookBack (lines : List String) :
    Digest.ofLines lines =
        { lines := lines.filter fun line => !allBlank line.toList
          features := lines.filterMap (after? "Feature: ")
          scenarios := lines.filterMap (after? "Scenario: ")
          states := stepTexts .state lines
          actions := stepTexts .action lines
          outcomes := stepTexts .outcome lines } ∧
      ∀ before line behind, lines = before ++ line :: behind →
        (continued? line).isSome = true → nearestStep? before = none →
        line ∈ (Digest.ofLines lines).lines ∧
          ∀ kind, (Digest.ofLines lines).bucket kind
            = (Digest.ofLines (before ++ behind)).bucket kind := by
  have hlines : (Digest.ofLines lines).lines
      = lines.filter fun line => !allBlank line.toList := lines_entriesFrom none lines
  constructor
  · apply Digest.ext_bucket hlines
    intro kind
    rw [bucket_ofLines]
    rcases kind with _ | _ | step
    · rw [stated_of_ne_step (by simp)]
      rfl
    · rw [stated_of_ne_step (by simp)]
      rfl
    · rw [stated_step]
      cases step <;> rfl
  · intro before line behind heq hcontinued hnone
    constructor
    · rw [hlines, List.mem_filter]
      refine ⟨by simp [heq], ?_⟩
      rw [continued?_eq_map, Option.isSome_map] at hcontinued
      cases hblank : allBlank line.toList with
      | false => rfl
      | true =>
        rw [(unindent_eq_nil_iff line.toList).2 hblank] at hcontinued
        simp [afterContinuation?, continuations, afterKeyword?] at hcontinued
    · intro kind
      obtain ⟨htext, hown⟩ := itemText?_of_continued hcontinued kind
      rw [bucket_ofLines, bucket_ofLines, heq, stated_append, stated_append, hnone,
        Option.none_or, stated_cons, htext, hown]
      rfl

end FeatureDigest.Gherkin
