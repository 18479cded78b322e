import FeatureDigest.Proofs.Gherkin.LookBack

/-!
# Where a feature file may be split

Digesting two parts of a file by themselves forgets the context that the first part
leaves.  The second part notices only if a continuation stands in it before any step
line (`Dangling`), and then it has fewer texts than it would have had in one piece.
-/

set_option autoImplicit false

namespace FeatureDigest.Gherkin

open FeatureDigest.Text

/-- A continuation stands before any step line. -/
def Dangling (lines : List String) : Prop :=
  ∃ before line behind, lines = before ++ line :: behind ∧
    (continued? line).isSome = true ∧ ∀ other ∈ before, ownStep? other = none

theorem not_dangling_nil : ¬ Dangling [] := by
  rintro ⟨before, line, behind, h, _⟩
  simp at h

theorem dangling_cons {line : String} {lines : List String} :
    Dangling (line :: lines) ↔
      (continued? line).isSome = true ∨ (ownStep? line = none ∧ Dangling lines) := by
  constructor
  · rintro ⟨before, found, behind, heq, hcontinued, hbefore⟩
    cases before with
    | nil =>
      rw [List.nil_append, List.cons.injEq] at heq
      rw [heq.1]
      exact Or.inl hcontinued
    | cons first before =>
      rw [List.cons_append, List.cons.injEq] at heq
      rw [heq.1]
      refine Or.inr ⟨hbefore first List.mem_cons_self, before, found, behind, heq.2,
        hcontinued, ?_⟩
      intro other hmem
      exact hbefore other (List.mem_cons_of_mem first hmem)
  · rintro (h | ⟨hown, before, found, behind, heq, hcontinued, hbefore⟩)
    · exact ⟨[], line, lines, rfl, h, by simp⟩
    · refine ⟨line :: before, found, behind, by rw [heq, List.cons_append], hcontinued, ?_⟩
      intro other hmem
      rcases List.mem_cons.1 hmem with rfl | hmem
      · exact hown
      · exact hbefore other hmem

theorem nearestStep?_eq_none_iff {lines : List String} :
    nearestStep? lines = none ↔ ∀ line ∈ lines, ownStep? line = none := by
  simp [nearestStep?, List.findSome?_eq_none_iff]

/-! ## Two contexts, line by line -/

/-- What a line states without a context it states in every context. -/
theorem itemText?_of_none {kind : Kind} {line text : String}
    (h : itemText? kind none line = some text) (context : Option Step) :
    itemText? kind context line = some text := by
  unfold itemText? at h ⊢
  rw [Option.map_eq_some_iff] at h ⊢
  obtain ⟨rest, hrest, rfl⟩ := h
  rw [Kind.text?_eq_some_iff] at hrest
  rcases hrest with hrest | ⟨_, _, hnone, _⟩
  · exact ⟨rest, kind.text?_of_keyword hrest context, rfl⟩
  · simp at hnone

/-- Only a continuation states more in a context than without one. -/
theorem itemText?_of_not_continued {line : String} (h : continued? line = none)
    (kind : Kind) (context : Option Step) :
    itemText? kind context line = itemText? kind none line := by
  cases htext : itemText? kind context line with
  | none =>
    cases hnone : itemText? kind none line with
    | none => rfl
    | some text =>
      rw [itemText?_of_none hnone context] at htext
      exact htext.symm
  | some text =>
    unfold itemText? at htext
    rw [Option.map_eq_some_iff] at htext
    obtain ⟨rest, hrest, rfl⟩ := htext
    rw [Kind.text?_eq_some_iff] at hrest
    rcases hrest with hrest | ⟨_, _, _, hrest⟩
    · rw [itemText?, kind.text?_of_keyword hrest none]
      rfl
    · rw [continued?_eq_map, hrest] at h
      simp at h

/-- Lines state without a context some of what they state in one, in the same order. -/
theorem stated_sublist (context : Option Step) (kind : Kind) (lines : List String) :
    (stated none kind lines).Sublist (stated context kind lines) := by
  induction lines generalizing context with
  | nil => exact List.Sublist.refl []
  | cons line lines ih =>
    rw [stated_cons, stated_cons]
    apply List.Sublist.append
    · cases hnone : itemText? kind none line with
      | none => exact List.nil_sublist _
      | some text =>
        have hsame := itemText?_of_none hnone context
        simp [hsame]
    · cases ownStep? line with
      | some step => exact List.Sublist.refl _
      | none => exact ih context

/-- The runs from two contexts agree up to the first step line, and from there on they
are one run. -/
theorem stated_of_not_dangling {lines : List String} (h : ¬ Dangling lines)
    (context : Option Step) (kind : Kind) :
    stated context kind lines = stated none kind lines := by
  induction lines with
  | nil => rfl
  | cons line lines ih =>
    rw [dangling_cons, not_or] at h
    have hcontinued : continued? line = none := by simpa using h.1
    rw [stated_cons, stated_cons, itemText?_of_not_continued hcontinued]
    cases hown : ownStep? line with
    | some step => rfl
    | none =>
      have htail : ¬ Dangling lines := fun hd => h.2 ⟨hown, hd⟩
      rw [Option.none_or, Option.none_or, ih htail]

/-- A continuation that dangles is a text more in a context of its kind. -/
theorem stated_length_lt {lines : List String} (h : Dangling lines) (step : Step) :
    (stated none (.step step) lines).length
      < (stated (some step) (.step step) lines).length := by
  induction lines with
  | nil => exact absurd h not_dangling_nil
  | cons line lines ih =>
    rw [stated_cons, stated_cons, List.length_append, List.length_append]
    rcases dangling_cons.1 h with hcontinued | ⟨hown, htail⟩
    · obtain ⟨hnone, hown⟩ := itemText?_of_continued hcontinued (.step step)
      have hsome : (itemText? (.step step) (some step) line).toList.length = 1 := by
        rw [continued?_eq_map, Option.isSome_map, Option.isSome_iff_exists] at hcontinued
        obtain ⟨rest, hrest⟩ := hcontinued
        have htext : (Kind.step step).text? (some step) (unindent line.toList) = some rest :=
          Kind.text?_eq_some_iff.2 (Or.inr ⟨step, rfl, rfl, hrest⟩)
        rw [itemText?, htext]
        rfl
      have htail := (stated_sublist (some step) (.step step) lines).length_le
      rw [hnone, hsome, hown, Option.none_or, Option.none_or]
      simp only [Option.toList_none, List.length_nil]
      omega
    · have hhead : (itemText? (.step step) none line).toList.length
          ≤ (itemText? (.step step) (some step) line).toList.length := by
        cases hnone : itemText? (.step step) none line with
        | none => exact Nat.zero_le _
        | some text =>
          have hsame := itemText?_of_none hnone (some step)
          simp [hsame]
      have hrest := ih htail
      rw [hown, Option.none_or, Option.none_or]
      omega

/-! ## Joint and split digests -/

theorem bucket_ofLines_append (first second : List String) (kind : Kind) :
    (Digest.ofLines (first ++ second)).bucket kind
      = stated none kind first ++ stated (nearestStep? first) kind second := by
  rw [bucket_ofLines, stated_append, Option.or_none]

theorem bucket_append_ofLines (first second : List String) (kind : Kind) :
    (Digest.ofLines first ++ Digest.ofLines second).bucket kind
      = stated none kind first ++ stated none kind second := by
  rw [Digest.bucket_append, bucket_ofLines, bucket_ofLines]

theorem lines_ofLines_append (first second : List String) :
    (Digest.ofLines (first ++ second)).lines
      = (Digest.ofLines first ++ Digest.ofLines second).lines := by
  have h (lines : List String) : (Digest.ofLines lines).lines
      = lines.filter fun line => !allBlank line.toList := lines_entriesFrom none lines
  rw [Digest.lines_append, h, h, h, List.filter_append]

/-- Two parts of a file digested by themselves give the digest of the whole exactly when
the first part leaves no context or no continuation of the second part needs it. -/
theorem ofLines_append_eq_iff_not_dangling (first second : List String) :
    Digest.ofLines (first ++ second) = Digest.ofLines first ++ Digest.ofLines second ↔
      nearestStep? first = none ∨ ¬ Dangling second := by
  constructor
  · intro heq
    cases hnear : nearestStep? first with
    | none => exact Or.inl rfl
    | some step =>
      apply Or.inr
      intro hdangling
      have hbucket := congrArg (fun digest => digest.bucket (.step step)) heq
      simp only [bucket_ofLines_append, bucket_append_ofLines, hnear] at hbucket
      have hsame := List.append_cancel_left hbucket
      have hlt := stated_length_lt hdangling step
      rw [hsame] at hlt
      exact Nat.lt_irrefl _ hlt
  · intro h
    apply Digest.ext_bucket (lines_ofLines_append first second)
    intro kind
    rw [bucket_ofLines_append, bucket_append_ofLines]
    rcases h with hnone | hdangling
    · rw [hnone]
    · rw [stated_of_not_dangling hdangling]

/-- A file may be split where no step line stands before the cut, or where every
continuation behind the cut has a step line between the cut and itself; nowhere else.
Lines and headers are never lost at a cut, and the split digests hold some of the steps
of the joint one, in their order. -/
theorem ofLines_append_eq_iff (first second : List String) :
    (Digest.ofLines (first ++ second) = Digest.ofLines first ++ Digest.ofLines second ↔
      (¬ ∃ line ∈ first, allBlank line.toList = false ∧ (ownStep? line).isSome = true) ∨
        ∀ before line behind, second = before ++ line :: behind →
          (continued? line).isSome = true →
          ∃ other ∈ before, (ownStep? other).isSome = true) ∧
      (Digest.ofLines (first ++ second)).lines
        = (Digest.ofLines first ++ Digest.ofLines second).lines ∧
      (Digest.ofLines (first ++ second)).features
        = (Digest.ofLines first ++ Digest.ofLines second).features ∧
      (Digest.ofLines (first ++ second)).scenarios
        = (Digest.ofLines first ++ Digest.ofLines second).scenarios ∧
      ∀ step, ((Digest.ofLines first ++ Digest.ofLines second).bucket (.step step)).Sublist
        ((Digest.ofLines (first ++ second)).bucket (.step step)) := by
  have hheader {kind : Kind} (h : ∀ step, kind ≠ .step step) :
      (Digest.ofLines (first ++ second)).bucket kind
        = (Digest.ofLines first ++ Digest.ofLines second).bucket kind := by
    rw [bucket_ofLines_append, bucket_append_ofLines, stated_of_ne_step h _ second,
      stated_of_ne_step h none second]
  have hfeature := hheader (by simp : ∀ step, Kind.feature ≠ .step step)
  have hscenario := hheader (by simp : ∀ step, Kind.scenario ≠ .step step)
  refine ⟨?_, lines_ofLines_append first second, hfeature, hscenario, ?_⟩
  · rw [ofLines_append_eq_iff_not_dangling]
    apply or_congr
    · rw [nearestStep?_eq_none_iff]
      constructor
      · rintro h ⟨line, hmem, _, hsome⟩
        rw [h line hmem] at hsome
        simp at hsome
      · intro h line hmem
        cases hown : ownStep? line with
        | none => rfl
        | some step =>
          refine absurd ⟨line, hmem, ?_, by rw [hown]; rfl⟩ h
          rw [← Bool.not_eq_true, ← unindent_eq_nil_iff]
          intro hblank
          rw [ownStep?_of_unindent_eq_nil hblank] at hown
          simp at hown
    · constructor
      · intro h before line behind heq hcontinued
        apply Decidable.byContradiction
        intro hnone
        apply h
        refine ⟨before, line, behind, heq, hcontinued, ?_⟩
        intro other hmem
        cases hown : ownStep? other with
        | none => rfl
        | some step => exact absurd ⟨other, hmem, by rw [hown]; rfl⟩ hnone
      · rintro h ⟨before, line, behind, heq, hcontinued, hbefore⟩
        obtain ⟨other, hmem, hsome⟩ := h before line behind heq hcontinued
        rw [hbefore other hmem] at hsome
        simp at hsome
  · intro step
    rw [bucket_ofLines_append, bucket_append_ofLines]
    exact List.Sublist.append (List.Sublist.refl _) (stated_sublist _ _ second)

end FeatureDigest.Gherkin
