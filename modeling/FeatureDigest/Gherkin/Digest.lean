import FeatureDigest.Gherkin.Entry

/-!
# Digests of feature files

A digest collects the lines of one or more feature files that are not blank, and
the texts of the items they state, kind by kind and in the order of the lines.
-/

set_option autoImplicit false

namespace FeatureDigest.Gherkin

/-- The classified content of one or more feature files. -/
structure Digest where
  /-- The lines that are not blank, as they were read. -/
  lines : List String
  features : List String
  scenarios : List String
  states : List String
  actions : List String
  outcomes : List String
  deriving DecidableEq, Repr, Inhabited

namespace Digest

/-- The digest of no line. -/
def empty : Digest := ⟨[], [], [], [], [], []⟩

/-- The texts of one kind. -/
def bucket (digest : Digest) : Kind → List String
  | .feature => digest.features
  | .scenario => digest.scenarios
  | .step .state => digest.states
  | .step .action => digest.actions
  | .step .outcome => digest.outcomes

/-- The digest of two files read one after the other, each by itself. -/
def append (first second : Digest) : Digest where
  lines := first.lines ++ second.lines
  features := first.features ++ second.features
  scenarios := first.scenarios ++ second.scenarios
  states := first.states ++ second.states
  actions := first.actions ++ second.actions
  outcomes := first.outcomes ++ second.outcomes

instance : Append Digest := ⟨append⟩

/-- How many lines stated an item. -/
def classified (digest : Digest) : Nat :=
  digest.features.length + digest.scenarios.length + digest.states.length
    + digest.actions.length + digest.outcomes.length

/-- The text of an entry's item, when it is of the given kind. -/
def textOf? (kind : Kind) (entry : Entry) : Option String :=
  match entry.item? with
  | some item => if item.kind = kind then some (String.ofList item.text) else none
  | none => none

/-- The digest of a list of entries. -/
def ofEntries (entries : List Entry) : Digest where
  lines := entries.map Entry.line
  features := entries.filterMap (textOf? .feature)
  scenarios := entries.filterMap (textOf? .scenario)
  states := entries.filterMap (textOf? (.step .state))
  actions := entries.filterMap (textOf? (.step .action))
  outcomes := entries.filterMap (textOf? (.step .outcome))

/-- The digest of a feature file's lines, the kinds tried in the given order. -/
def ofLinesBy (order : List Kind) (lines : List String) : Digest :=
  ofEntries (entriesBy order lines)

/-- The digest of a feature file's lines. -/
def ofLines (lines : List String) : Digest := ofLinesBy Kind.all lines

/-- All digests in one, in their order. -/
def concat (digests : List Digest) : Digest := digests.foldl append empty

@[simp] theorem bucket_ofEntries (kind : Kind) (entries : List Entry) :
    (ofEntries entries).bucket kind = entries.filterMap (textOf? kind) := by
  rcases kind with _ | _ | (_ | _ | _) <;> rfl

@[simp] theorem bucket_append (first second : Digest) (kind : Kind) :
    (first ++ second).bucket kind = first.bucket kind ++ second.bucket kind := by
  rcases kind with _ | _ | (_ | _ | _) <;> rfl

@[simp] theorem lines_append (first second : Digest) :
    (first ++ second).lines = first.lines ++ second.lines := rfl

theorem ext_bucket {first second : Digest} (lines : first.lines = second.lines)
    (buckets : ∀ kind, first.bucket kind = second.bucket kind) : first = second := by
  have hf := buckets .feature
  have hs := buckets .scenario
  have h1 := buckets (.step .state)
  have h2 := buckets (.step .action)
  have h3 := buckets (.step .outcome)
  cases first
  cases second
  simp_all [bucket]

theorem ofEntries_append (first second : List Entry) :
    ofEntries (first ++ second) = ofEntries first ++ ofEntries second :=
  ext_bucket (by simp [ofEntries]) (by intro kind; simp)

theorem foldl_append_bucket (digest : Digest) (digests : List Digest) (kind : Kind) :
    (digests.foldl append digest).bucket kind
      = digest.bucket kind ++ digests.flatMap fun other => other.bucket kind := by
  induction digests generalizing digest with
  | nil => simp
  | cons first digests ih =>
    rw [List.foldl_cons, ih, List.flatMap_cons, ← List.append_assoc]
    exact congrArg (· ++ _) (bucket_append digest first kind)

@[simp] theorem bucket_empty (kind : Kind) : empty.bucket kind = [] := by
  rcases kind with _ | _ | (_ | _ | _) <;> rfl

/-- The texts of a kind in all digests, one digest after the other. -/
theorem bucket_concat (digests : List Digest) (kind : Kind) :
    (concat digests).bucket kind = digests.flatMap fun digest => digest.bucket kind := by
  rw [concat, foldl_append_bucket, bucket_empty, List.nil_append]

theorem classified_eq_foldr (digest : Digest) :
    digest.classified
      = Kind.all.foldr (fun kind count => (digest.bucket kind).length + count) 0 := by
  simp [classified, Kind.all, bucket, Nat.add_assoc]

theorem classified_append (first second : Digest) :
    (first ++ second).classified = first.classified + second.classified := by
  simp only [classified_eq_foldr, bucket_append, List.length_append]
  simp [Kind.all]
  omega

/-- A line that states an item counts once, whatever its kind. -/
theorem classified_ofEntries (entries : List Entry) :
    (ofEntries entries).classified
      = (entries.filter fun entry => entry.item?.isSome).length := by
  induction entries with
  | nil => rfl
  | cons entry entries ih =>
    have hone : (ofEntries [entry]).classified
        = ([entry].filter fun entry => entry.item?.isSome).length := by
      obtain ⟨line, item⟩ := entry
      rcases item with _ | ⟨_ | _ | (_ | _ | _), text⟩ <;> rfl
    rw [← List.singleton_append, ofEntries_append, classified_append, hone, ih,
      List.filter_append, List.length_append]

end Digest

end FeatureDigest.Gherkin
