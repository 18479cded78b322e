import FeatureDigest.Proofs.Gherkin.LookBack

/-!
# Feature files laid out anew

Indenting lines, and putting lines between them that say nothing, changes no bucket of a digest;
putting headers between them changes no bucket of steps (`ofLines_relaid`).  For a bucket it only
matters whether a line that comes in is silent about its kind (`Silent`): it then adds no text,
and the context goes through it unchanged.  The lines that a digest keeps are those it was made
of without the blank ones, which is such a change of layout, so digesting them again gives the
same digest.
-/

set_option autoImplicit false

namespace FeatureDigest.Gherkin

open FeatureDigest.Text

/-! ## Changes of layout -/

/-- The words that can say what a line is. -/
def keywords : List String :=
  ["Feature: ", "Scenario: ", "Given ", "When ", "Then ", "And ", "But "]

/-- A line that says nothing: it is blank, or starts with no keyword, blanks before it aside. -/
def IsIdle (line : String) : Prop :=
  allBlank line.toList = true ∨ ∀ keyword ∈ keywords, after? keyword line = none

/-- A line that names a feature or a scenario. -/
def IsHeader (line : String) : Prop :=
  (after? "Feature: " line).isSome = true ∨ (after? "Scenario: " line).isSome = true

/-- The second lines are the first ones, indented by any blanks, with extra lines before, between
and after them. -/
inductive Relaid (extra : String → Prop) : List String → List String → Prop
  | nil : Relaid extra [] []
  | indented {indent line : String} {lines others : List String}
      (blank : allBlank indent.toList = true) (rest : Relaid extra lines others) :
      Relaid extra (line :: lines) ((indent ++ line) :: others)
  | inserted {line : String} {lines others : List String} (isExtra : extra line)
      (rest : Relaid extra lines others) : Relaid extra lines (line :: others)

/-- A list of lines is laid out anew from those of them that are not blank. -/
theorem relaid_filter (lines : List String) :
    Relaid IsIdle (lines.filter fun line => !allBlank line.toList) lines := by
  induction lines with
  | nil => exact .nil
  | cons line lines ih =>
    cases hblank : allBlank line.toList with
    | true =>
      rw [List.filter_cons_of_neg (by simp [hblank])]
      exact .inserted (Or.inl hblank) ih
    | false =>
      rw [List.filter_cons_of_pos (by simp [hblank])]
      have hkept : Relaid IsIdle (line :: lines.filter fun line => !allBlank line.toList)
          (("" ++ line) :: lines) := .indented rfl ih
      rwa [String.empty_append] at hkept

/-! ## Silent lines -/

/-- A line that states no item of a kind, in whatever context, and leaves the context alone. -/
structure Silent (kind : Kind) (line : String) : Prop where
  text : ∀ context, itemText? kind context line = none
  context : ownStep? line = none

/-- The words that can open an item of a kind are keywords. -/
theorem mem_keywords (kind : Kind) : String.ofList kind.keyword ∈ keywords := by
  rcases kind with _ | _ | (_ | _ | _) <;> decide

theorem after?_of_unindent_eq_nil {keyword line : String} (hline : unindent line.toList = [])
    (hkeyword : keyword ≠ "") : after? keyword line = none := by
  have hne : keyword.toList ≠ [] := mt String.toList_eq_nil_iff.1 hkeyword
  obtain ⟨c, rest, hcons⟩ := List.exists_cons_of_ne_nil hne
  rw [after?_eq_map, hline, hcons]
  rfl

theorem IsIdle.after? {line keyword : String} (h : IsIdle line) (hkeyword : keyword ∈ keywords) :
    after? keyword line = none := by
  rcases h with hblank | hnone
  · have hne : keyword ≠ "" := by
      rintro rfl
      exact absurd hkeyword (by decide)
    exact after?_of_unindent_eq_nil ((unindent_eq_nil_iff _).2 hblank) hne
  · exact hnone keyword hkeyword

theorem ownStep?_eq_none {line : String} (h : ∀ step : Step, after? step.word line = none) :
    ownStep? line = none := by
  cases hown : ownStep? line with
  | none => rfl
  | some step =>
    rw [ownStep?_eq_some_iff, h step] at hown
    cases hown

/-- A line that says nothing is silent about every kind. -/
theorem IsIdle.silent {line : String} (h : IsIdle line) (kind : Kind) : Silent kind line := by
  constructor
  · intro context
    cases htext : itemText? kind context line with
    | none => rfl
    | some text =>
      obtain ⟨rest, hrest, _⟩ := Option.map_eq_some_iff.1 htext
      rcases Kind.text?_eq_some_iff.1 hrest with hown | ⟨_, _, _, hcontinued⟩
      · have hnone := h.after? (mem_keywords kind)
        rw [after?_eq_map, String.toList_ofList, hown] at hnone
        cases hnone
      · have hnone : continued? line = none := by
          rw [continued?, h.after? (by decide), h.after? (by decide)]
          rfl
        rw [continued?_eq_map, hcontinued] at hnone
        cases hnone
  · exact ownStep?_eq_none fun step => h.after? (by cases step <;> decide)

/-- A line that names what is no step is silent about steps. -/
theorem silent_of_header (header : Kind) (hheader : ∀ step, header ≠ .step step) {line : String}
    (h : (after? (String.ofList header.keyword) line).isSome = true) (step : Step) :
    Silent (.step step) line := by
  rw [after?_eq_map, String.toList_ofList, Option.isSome_map, Option.isSome_iff_exists] at h
  obtain ⟨rest, hrest⟩ := h
  have hnone (step : Step) (context : Option Step) :
      (Kind.step step).text? context (unindent line.toList) = none := by
    have hnamed := header.text?_of_keyword hrest context
    cases htext : (Kind.step step).text? context (unindent line.toList) with
    | none => rfl
    | some other => exact absurd (Kind.text?_unique hnamed htext) (hheader step)
  constructor
  · intro context
    rw [itemText?, hnone]
    rfl
  · apply ownStep?_eq_none
    intro other
    rw [after?_eq_map, word_toList]
    cases hown : afterKeyword? (Kind.step other).keyword (unindent line.toList) with
    | none => rfl
    | some own =>
      have hstated := (Kind.step other).text?_of_keyword hown none
      rw [hnone] at hstated
      cases hstated

theorem IsHeader.silent {line : String} (h : IsHeader line) (step : Step) :
    Silent (.step step) line := by
  rcases h with hfeature | hscenario
  · exact silent_of_header .feature (by simp) hfeature step
  · exact silent_of_header .scenario (by simp) hscenario step

/-! ## Buckets -/

theorem unindent_indented {indent : String} (h : allBlank indent.toList = true)
    (line : String) : unindent (indent ++ line).toList = unindent line.toList := by
  rw [String.toList_append]
  exact unindent_append_of_allBlank _ h

/-- The texts of a kind are the same however the lines are laid out, as long as the extra lines
are silent about the kind.  The induction is on the change of layout, and the context may be any
one: an extra line passes it on. -/
theorem stated_of_relaid {extra : String → Prop} {kind : Kind}
    (hsilent : ∀ line, extra line → Silent kind line) {lines others : List String}
    (h : Relaid extra lines others) (context : Option Step) :
    stated context kind others = stated context kind lines := by
  induction h generalizing context with
  | nil => rfl
  | @indented indent line lines others hblank _ ih =>
    have hsame := unindent_indented hblank line
    have htext : itemText? kind context (indent ++ line) = itemText? kind context line := by
      rw [itemText?, itemText?, hsame]
    have hown : ownStep? (indent ++ line) = ownStep? line := by
      simp only [ownStep?, after?_eq_map, hsame]
    rw [stated_cons, stated_cons, htext, hown, ih]
  | @inserted line lines others hextra _ ih =>
    obtain ⟨htext, hown⟩ := hsilent line hextra
    rw [stated_cons, htext, hown, Option.none_or, ih]
    rfl

theorem bucket_of_relaid {extra : String → Prop} {kind : Kind}
    (hsilent : ∀ line, extra line → Silent kind line) {lines others : List String}
    (h : Relaid extra lines others) :
    (Digest.ofLines others).bucket kind = (Digest.ofLines lines).bucket kind := by
  rw [bucket_ofLines, bucket_ofLines]
  exact stated_of_relaid hsilent h none

/-- Lines that are laid out anew with extra lines that say nothing have the same items of every
kind, and with extra headers as well they still have the same steps.  What a digest keeps of its
lines has the same digest. -/
theorem ofLines_relaid (lines : List String) :
    (∀ others, Relaid IsIdle lines others →
        ∀ kind, (Digest.ofLines others).bucket kind = (Digest.ofLines lines).bucket kind) ∧
      (∀ others, Relaid (fun line => IsIdle line ∨ IsHeader line) lines others →
        ∀ step, (Digest.ofLines others).bucket (.step step)
          = (Digest.ofLines lines).bucket (.step step)) ∧
      Digest.ofLines (Digest.ofLines lines).lines = Digest.ofLines lines := by
  have hkinds {lines others : List String} (h : Relaid IsIdle lines others) (kind : Kind) :
      (Digest.ofLines others).bucket kind = (Digest.ofLines lines).bucket kind :=
    bucket_of_relaid (fun _ hidle => hidle.silent kind) h
  refine ⟨fun others h => hkinds h, ?_, ?_⟩
  · intro others h step
    apply bucket_of_relaid ?_ h
    rintro line (hidle | hheader)
    · exact hidle.silent (.step step)
    · exact hheader.silent step
  · have hlines (lines : List String) : (Digest.ofLines lines).lines
        = lines.filter fun line => !allBlank line.toList := lines_entriesFrom none lines
    apply Digest.ext_bucket
    · rw [hlines, hlines, List.filter_filter]
      simp only [Bool.and_self]
    · intro kind
      rw [hlines]
      exact (hkinds (relaid_filter lines) kind).symm

/-- A step with a continuation, and the same lines indented and with extra ones between them. -/
theorem ofLines_relaid_continued :
    Relaid IsIdle ["Given a", "And b"] ["\t", "\u3000Given a", "# no step", " And b"] ∧
      Relaid (fun line => IsIdle line ∨ IsHeader line) ["Given a", "And b"]
        ["Given a", "Scenario: Given c", "And b"] ∧
      (Digest.ofLines ["\t", "\u3000Given a", "# no step", " And b"]).states = ["a", "b"] ∧
      (Digest.ofLines ["Given a", "Scenario: Given c", "And b"]).states = ["a", "b"] := by
  have hblank : IsIdle "\t" := Or.inl rfl
  have hnote : IsIdle "# no step" := Or.inr (by decide)
  have hidle : Relaid IsIdle ["Given a", "And b"]
      ["\t", "\u3000" ++ "Given a", "# no step", " " ++ "And b"] :=
    .inserted hblank (.indented rfl (.inserted hnote (.indented rfl .nil)))
  have hheader : Relaid (fun line => IsIdle line ∨ IsHeader line) ["Given a", "And b"]
      ["" ++ "Given a", "Scenario: Given c", "" ++ "And b"] :=
    .indented rfl (.inserted (Or.inr (Or.inr (by decide))) (.indented rfl .nil))
  have hstates : (Digest.ofLines ["Given a", "And b"]).states = ["a", "b"] := by decide +kernel
  obtain ⟨hall, hsteps, _⟩ := ofLines_relaid ["Given a", "And b"]
  refine ⟨hidle, hheader, ?_, ?_⟩
  · exact (hall _ hidle (.step .state)).trans hstates
  · exact (hsteps _ hheader .state).trans hstates

end FeatureDigest.Gherkin
