import FeatureDigest.Proofs.Json.Decoding

/-!
# What literals denote

A literal denotes characters: as they stand, by one-letter escapes, or by their numbers, of which
some characters need a pair.  What a literal denotes is read (`readLiteral_of_denotes`).  A literal
that denotes nothing has a surrogate without its partner, and whatever follows it, it is not read
(`readLiteral_cases`).
-/

set_option autoImplicit false

namespace FeatureDigest.Json

/-- What stands between the quotes of a literal denotes some characters. -/
inductive Denotes : (spelling content : List Char) → Prop
  | nil : Denotes [] []
  | plain {c : Char} {spelling content : List Char} (quote : c ≠ '"') (backslash : c ≠ '\\')
      (control : ¬ c.toNat < 0x20) (more : Denotes spelling content) :
      Denotes (c :: spelling) (c :: content)
  | letter {letter c : Char} {spelling content : List Char}
      (escape : letterEscape? letter = some c) (more : Denotes spelling content) :
      Denotes ('\\' :: letter :: spelling) (c :: content)
  | unit {a b c d : Char} {unit : Nat} {spelling content : List Char}
      (digits : unit? a b c d = some unit) (notLeading : isLeading unit = false)
      (notTrailing : isTrailing unit = false) (more : Denotes spelling content) :
      Denotes ('\\' :: 'u' :: a :: b :: c :: d :: spelling) (Char.ofNat unit :: content)
  | pair {a b c d a' b' c' d' : Char} {first second : Nat} {spelling content : List Char}
      (digits : unit? a b c d = some first) (leading : isLeading first = true)
      (others : unit? a' b' c' d' = some second) (trailing : isTrailing second = true)
      (more : Denotes spelling content) :
      Denotes ('\\' :: 'u' :: a :: b :: c :: d :: '\\' :: 'u' :: a' :: b' :: c' :: d' :: spelling)
        (pairChar first second :: content)

theorem not_isTrailing_of_isLeading {unit : Nat} (h : isLeading unit = true) :
    isTrailing unit = false := by
  simp only [isLeading, isTrailing, Bool.and_eq_true, Bool.and_eq_false_iff, decide_eq_true_eq,
    decide_eq_false_iff_not] at h ⊢
  omega

theorem readLiteral_pair {a b c d a' b' c' d' : Char} {first second : Nat}
    (hfirst : unit? a b c d = some first) (hleading : isLeading first = true)
    (hsecond : unit? a' b' c' d' = some second) (htrailing : isTrailing second = true)
    (rest : List Char) :
    readLiteral ('\\' :: 'u' :: a :: b :: c :: d ::
        '\\' :: 'u' :: a' :: b' :: c' :: d' :: rest)
      = consText (pairChar first second) (readLiteral rest) := by
  rw [readLiteral]
  simp [hfirst, hleading, not_isTrailing_of_isLeading hleading, hsecond, htrailing]

/-- What a literal denotes is read. -/
theorem readLiteral_of_denotes {spelling content : List Char} (h : Denotes spelling content)
    (rest : List Char) : readLiteral (spelling ++ '"' :: rest) = .ok (content, rest) := by
  induction h with
  | nil => simp [readLiteral]
  | plain hquote hbackslash hcontrol _ ih =>
    rw [List.cons_append, readLiteral_plain hquote hbackslash hcontrol, ih]
    rfl
  | letter hescape _ ih =>
    rw [List.cons_append, List.cons_append, readLiteral_letter hescape, ih]
    rfl
  | unit hdigits hleading htrailing _ ih =>
    simp only [List.cons_append]
    rw [readLiteral_unit hdigits hleading htrailing, ih]
    rfl
  | pair hdigits hleading hothers htrailing _ ih =>
    simp only [List.cons_append]
    rw [readLiteral_pair hdigits hleading hothers htrailing, ih]
    rfl

theorem Denotes.unique {spelling first second : List Char} (hfirst : Denotes spelling first)
    (hsecond : Denotes spelling second) : first = second := by
  have hread := readLiteral_of_denotes hfirst []
  rw [readLiteral_of_denotes hsecond []] at hread
  cases hread
  rfl

/-- A literal is not read, whatever follows it. -/
def Unreadable (spelling : List Char) : Prop :=
  ∀ rest, ∃ fault, readLiteral (spelling ++ '"' :: rest) = .error fault

/-- What was said of a spelling is said of one that starts with one more character. -/
theorem readLiteral_cases_extend {spelling longer : List Char} {c : Char}
    (h : (∃ content, Denotes spelling content) ∨ Unreadable spelling)
    (hdenotes : ∀ content, Denotes spelling content → Denotes longer (c :: content))
    (hread : ∀ rest, readLiteral (longer ++ '"' :: rest)
      = consText c (readLiteral (spelling ++ '"' :: rest))) :
    (∃ content, Denotes longer content) ∨ Unreadable longer := by
  rcases h with ⟨content, hcontent⟩ | hunreadable
  · exact Or.inl ⟨c :: content, hdenotes content hcontent⟩
  · refine Or.inr fun rest => ?_
    obtain ⟨fault, hfault⟩ := hunreadable rest
    exact ⟨fault, by rw [hread, hfault]; rfl⟩

theorem IsLiteral.after_unit {a b c d : Char} {spelling : List Char}
    (h : IsLiteral ('\\' :: 'u' :: a :: b :: c :: d :: spelling)) : IsLiteral spelling := by
  cases h with
  | plain _ hbackslash _ _ => exact absurd rfl hbackslash
  | letter hescape _ => cases hescape
  | unit _ hmore => exact hmore

/-- A trailing surrogate comes after a leading one only. -/
theorem unreadable_of_isTrailing {a b c d : Char} {unit : Nat} (h : unit? a b c d = some unit)
    (htrailing : isTrailing unit = true) (spelling : List Char) :
    Unreadable ('\\' :: 'u' :: a :: b :: c :: d :: spelling) := by
  intro rest
  simp only [List.cons_append, readLiteral, h, htrailing, if_true]
  exact ⟨_, rfl⟩

/-- A leading surrogate needs a trailing one next to it. -/
theorem unreadable_of_isLeading {a b c d : Char} {unit : Nat} (h : unit? a b c d = some unit)
    (hleading : isLeading unit = true) {spelling : List Char} (hspelling : IsLiteral spelling)
    (halone : ∀ a b c d other rest, spelling = '\\' :: 'u' :: a :: b :: c :: d :: rest →
      unit? a b c d = some other → isTrailing other = false) :
    Unreadable ('\\' :: 'u' :: a :: b :: c :: d :: spelling) := by
  intro rest
  have htrailing := not_isTrailing_of_isLeading hleading
  cases hspelling with
  | nil =>
    simp only [List.cons_append, List.nil_append, readLiteral, h, hleading, htrailing,
      Bool.false_eq_true, if_true, if_false]
    exact ⟨_, rfl⟩
  | plain hquote hbackslash hcontrol hmore =>
    simp [readLiteral, h, hleading, htrailing, hbackslash]
  | @letter letter c spelling hescape hmore =>
    have hu : letter ≠ 'u' := by
      rintro rfl
      simp [letterEscape?] at hescape
    simp [readLiteral, h, hleading, htrailing, hu]
  | unit hdigits hmore =>
    have hsecond := halone _ _ _ _ _ _ rfl hdigits
    simp [readLiteral, h, hleading, htrailing, hdigits, hsecond]

/-- A literal denotes characters, or it is not read. -/
theorem readLiteral_cases {spelling : List Char} (h : IsLiteral spelling) :
    (∃ content, Denotes spelling content) ∨ Unreadable spelling := by
  induction hlength : spelling.length using Nat.strongRecOn generalizing spelling with
  | ind length ih =>
    subst hlength
    cases h with
    | nil => exact Or.inl ⟨[], .nil⟩
    | plain hquote hbackslash hcontrol hmore =>
      exact readLiteral_cases_extend (ih _ (by simp only [List.length_cons]; omega) hmore rfl)
        (fun _ => .plain hquote hbackslash hcontrol)
        fun rest => readLiteral_plain hquote hbackslash hcontrol _
    | letter hescape hmore =>
      exact readLiteral_cases_extend (ih _ (by simp only [List.length_cons]; omega) hmore rfl)
        (fun _ => .letter hescape) fun rest => readLiteral_letter hescape _
    | @unit a b c d unit spelling hdigits hmore =>
      cases htrailing : isTrailing unit with
      | true => exact Or.inr (unreadable_of_isTrailing hdigits htrailing spelling)
      | false =>
        cases hleading : isLeading unit with
        | false =>
          exact readLiteral_cases_extend (ih _ (by simp only [List.length_cons]; omega) hmore rfl)
            (fun _ => .unit hdigits hleading htrailing)
            fun rest => readLiteral_unit hdigits hleading htrailing _
        | true =>
          by_cases hpair : ∃ a b c d other rest,
              spelling = '\\' :: 'u' :: a :: b :: c :: d :: rest ∧
                unit? a b c d = some other ∧ isTrailing other = true
          · obtain ⟨a', b', c', d', other, rest, rfl, hothers, hother⟩ := hpair
            exact readLiteral_cases_extend
              (ih _ (by simp only [List.length_cons]; omega) hmore.after_unit rfl)
              (fun _ => .pair hdigits hleading hothers hother)
              fun rest => readLiteral_pair hdigits hleading hothers hother _
          · refine Or.inr (unreadable_of_isLeading hdigits hleading hmore ?_)
            intro a b c d other rest hspelling hothers
            rw [← Bool.not_eq_true]
            exact fun hother => hpair ⟨a, b, c, d, other, rest, hspelling, hothers, hother⟩

end FeatureDigest.Json
