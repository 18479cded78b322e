/-!
# Keywords of feature files

A line of a feature file says what it is by the keyword it starts with.  Headers
name a feature or a scenario; steps state what is given, what is done and what is
then expected; `And` and `But` continue the step kind of the lines before them.
Keywords are case-sensitive and include the blank that ends them.
-/

set_option autoImplicit false

namespace FeatureDigest.Gherkin

/-- The kinds of step: what is given, what is done, what is then expected. -/
inductive Step
  | state
  | action
  | outcome
  deriving DecidableEq, Repr, Inhabited

/-- The kinds of line that a digest collects. -/
inductive Kind
  | feature
  | scenario
  | step (step : Step)
  deriving DecidableEq, Repr, Inhabited

namespace Kind

/-- The keyword that makes a line one of this kind, whatever stands before it. -/
def keyword : Kind → List Char
  | .feature => "Feature: ".toList
  | .scenario => "Scenario: ".toList
  | .step .state => "Given ".toList
  | .step .action => "When ".toList
  | .step .outcome => "Then ".toList

/-- Every kind, in the order in which a line is tried. -/
def all : List Kind :=
  [.feature, .scenario, .step .state, .step .action, .step .outcome]

theorem mem_all (kind : Kind) : kind ∈ all := by
  rcases kind with _ | _ | (_ | _ | _) <;> decide

end Kind

/-- The keywords that continue the step before them. -/
def continuations : List (List Char) := ["And ".toList, "But ".toList]

/-- What follows `keyword` in a line that starts with it. -/
def afterKeyword? : (keyword line : List Char) → Option (List Char)
  | [], line => some line
  | _ :: _, [] => none
  | k :: keyword, c :: line => if k = c then afterKeyword? keyword line else none

theorem afterKeyword?_eq_some_iff {keyword line rest : List Char} :
    afterKeyword? keyword line = some rest ↔ line = keyword ++ rest := by
  induction keyword generalizing line with
  | nil => simp [afterKeyword?]
  | cons k keyword ih =>
    cases line with
    | nil => simp [afterKeyword?]
    | cons c line =>
      by_cases h : k = c
      · simp [afterKeyword?, h, ih]
      · simp [afterKeyword?, h, Ne.symm h]

/-- What follows `And ` or `But ` in a line that starts with it. -/
def afterContinuation? (line : List Char) : Option (List Char) :=
  continuations.findSome? fun keyword => afterKeyword? keyword line

end FeatureDigest.Gherkin
