import FeatureDigest.Glob.Match
import FeatureDigest.Proofs.Path.Pieces

/-!
# Patterns of folders

A name that has no wildcards makes two patterns of what is in folders of that name: one of what
is in such a folder at the front of a path, and one of what is in such a folder anywhere.  The
first matches the texts that begin with the name and a slash (`matches_front_iff`), and the
second those that have the name among their pieces, the last one apart
(`matches_anywhere_iff`): that the search stops where the text is used up loses nothing.  Both
match all that goes on from what they match (`Pattern.Grows`).
-/

set_option autoImplicit false

namespace FeatureDigest.Glob

/-- A text that is not empty, and whose characters stand for themselves in a pattern and are no
slash. -/
structure IsWord (word : List Char) : Prop where
  ne_nil : word ≠ []
  plain : ∀ c ∈ word, c ∉ ['/', '*', '?', '[', ']']

instance (word : List Char) : Decidable (IsWord word) :=
  decidable_of_iff (word ≠ [] ∧ word.all (fun c => c ∉ ['/', '*', '?', '[', ']']) = true)
    ⟨fun h => ⟨h.1, fun c hc => of_decide_eq_true (List.all_eq_true.1 h.2 c hc)⟩,
      fun h => ⟨h.ne_nil, List.all_eq_true.2 fun c hc => decide_eq_true (h.plain c hc)⟩⟩

theorem IsWord.slash_not_mem {word : List Char} (h : IsWord word) : '/' ∉ word :=
  fun hslash => h.plain '/' hslash List.mem_cons_self

/-! ## What the patterns are read as -/

theorem readTokens_char {c : Char} (h : c ∉ ['*', '?', '[']) (context : Context)
    (rest : List Char) :
    readTokens context (c :: rest)
      = (readTokens (context.push 1 c) rest).map (.char c :: ·) := by
  simp only [List.mem_cons, List.not_mem_nil, or_false, not_or] at h
  obtain ⟨hstar, hany, hclass⟩ := h
  rw [readTokens]
  all_goals simp_all

/-- The tokens of a name, a slash and what follows in any number of components. -/
def folderTokens (word : List Char) : List Token :=
  (word ++ ['/']).map .char ++ [.anyComponents]

theorem readTokens_folder {word : List Char}
    (h : ∀ c ∈ word, c ∉ ['/', '*', '?', '[', ']']) (context : Context) :
    readTokens context (word ++ ['/', '*', '*']) = .ok (folderTokens word) := by
  induction word generalizing context with
  | nil =>
    rw [List.nil_append, readTokens_char (by decide)]
    simp [readTokens, Context.push, Context.atComponent, Context.keepsComponents, folderTokens,
      Except.map]
  | cons c word ih =>
    obtain ⟨hc, hword⟩ := List.forall_mem_cons.1 h
    have hplain : c ∉ ['*', '?', '['] := by
      simp only [List.mem_cons, List.not_mem_nil, or_false, not_or] at hc ⊢
      exact ⟨hc.2.1, hc.2.2.1, hc.2.2.2.1⟩
    rw [List.cons_append, readTokens_char hplain, ih hword]
    rfl

theorem compile_front {name : String} (h : IsWord name.toList) :
    compile (name ++ "/**") = .ok ⟨name ++ "/**", folderTokens name.toList⟩ := by
  have htext : (name ++ "/**").toList = name.toList ++ ['/', '*', '*'] := String.toList_append
  rw [compile, htext, readTokens_folder h.plain]
  rfl

theorem compile_anywhere {name : String} (h : IsWord name.toList) :
    compile ("**/" ++ name ++ "/**")
      = .ok ⟨"**/" ++ name ++ "/**", .anyComponents :: folderTokens name.toList⟩ := by
  have htext : ("**/" ++ name ++ "/**").toList
      = '*' :: '*' :: '/' :: (name.toList ++ ['/', '*', '*']) := by
    simp [String.toList_append]
  have hstart : Context.start.atComponent = true ∧ Context.start.keepsComponents = true := by
    decide
  rw [compile, htext, readTokens, if_pos hstart.1]
  dsimp only
  rw [readTokens_folder h.plain, hstart.2]
  rfl

/-! ## What the patterns match -/

/-- Whatever is left of a text is some number of components. -/
theorem tryTokens_anyComponents (text : List Char) :
    tryTokens [.anyComponents] text = .matched := by
  have hlonger (text : List Char) : tryLonger true (tryTokens []) text = .matched := by
    induction text with
    | nil => rfl
    | cons c rest ih =>
      rw [tryLonger]
      split
      · exact ih
      · cases rest with
        | nil => rfl
        | cons d rest => exact ih
  rw [tryTokens, tryRuns]
  cases text with
  | nil => rfl
  | cons c rest => exact hlonger (c :: rest)

/-- Characters are matched one after the other.  When the text is used up, it is shorter than
they are. -/
theorem tryTokens_chars (chars text : List Char) :
    (tryTokens (chars.map .char ++ [.anyComponents]) text = .matched ↔ chars <+: text) ∧
      (tryTokens (chars.map .char ++ [.anyComponents]) text = .exhausted →
        text.length < chars.length) := by
  induction chars generalizing text with
  | nil =>
    rw [List.map_nil, List.nil_append, tryTokens_anyComponents]
    exact ⟨iff_of_true rfl List.nil_prefix, nofun⟩
  | cons c chars ih =>
    rw [List.map_cons, List.cons_append]
    cases text with
    | nil => exact ⟨iff_of_false nofun (by simp), fun _ => Nat.succ_pos _⟩
    | cons d text =>
      rw [tryTokens]
      by_cases hsame : d = c
      · rw [hsame, if_pos (by simp [Token.admits]), List.prefix_cons_inj, (ih text).1]
        exact ⟨Iff.rfl, fun hexhausted => Nat.succ_lt_succ ((ih text).2 hexhausted)⟩
      · rw [if_neg (by simpa [Token.admits] using hsame), List.cons_prefix_cons]
        exact ⟨iff_of_false nofun fun h => hsame h.1.symm, nofun⟩
      all_goals exact nofun

/-- The text begins with the characters, or they follow one of its slashes. -/
def Follows (chars text : List Char) : Prop :=
  chars <+: text ∨ ∃ front rest, text = front ++ '/' :: rest ∧ chars <+: rest

theorem Follows.length_le {chars text : List Char} (h : Follows chars text) :
    chars.length ≤ text.length := by
  rcases h with h | ⟨front, rest, rfl, h⟩
  · exact h.length_le
  · have hle := h.length_le
    simp only [List.length_append, List.length_cons]
    omega

theorem Follows.of_prefix {chars first second : List Char} (h : first <+: second)
    (hfirst : Follows chars first) : Follows chars second := by
  obtain ⟨more, rfl⟩ := h
  rcases hfirst with hbegins | ⟨front, rest, rfl, hrest⟩
  · exact Or.inl (hbegins.trans (List.prefix_append first more))
  · exact Or.inr ⟨front, rest ++ more, by simp, hrest.trans (List.prefix_append rest more)⟩

theorem Follows.after_slash {chars text : List Char} (h : Follows chars text)
    (front : List Char) : Follows chars (front ++ '/' :: text) := by
  rcases h with hbegins | ⟨middle, rest, rfl, hrest⟩
  · exact Or.inr ⟨front, text, rfl, hbegins⟩
  · exact Or.inr ⟨front ++ '/' :: middle, rest, by simp, hrest⟩

theorem follows_cons_iff {chars text : List Char} {c : Char} :
    (∃ front rest, c :: text = front ++ '/' :: rest ∧ chars <+: rest)
      ↔ if c = '/' then Follows chars text
        else ∃ front rest, text = front ++ '/' :: rest ∧ chars <+: rest := by
  constructor
  · rintro ⟨front, rest, htext, hrest⟩
    cases front with
    | nil =>
      cases htext
      rw [if_pos rfl]
      exact Or.inl hrest
    | cons d front =>
      cases htext
      split
      · exact Or.inr ⟨front, rest, rfl, hrest⟩
      · exact ⟨front, rest, rfl, hrest⟩
  · intro h
    split at h
    · rename_i hc
      rcases h with h | ⟨front, rest, rfl, hrest⟩
      · exact ⟨[], text, by rw [hc]; rfl, h⟩
      · exact ⟨c :: front, rest, rfl, hrest⟩
    · obtain ⟨front, rest, rfl, hrest⟩ := h
      exact ⟨c :: front, rest, rfl, hrest⟩

/-- A search that is right about where the characters are, and stops only where the text is
shorter than they are, finds them after any slash. -/
theorem tryLonger_eq_matched_iff {chars : List Char} (hne : chars ≠ []) {next : List Char → Verdict}
    (hnext : ∀ text, next text = .matched ↔ chars <+: text)
    (hshort : ∀ text, next text = .exhausted → text.length < chars.length) (text : List Char) :
    tryLonger true next text = .matched
      ↔ ∃ front rest, text = front ++ '/' :: rest ∧ chars <+: rest := by
  induction text with
  | nil =>
    rw [tryLonger, hnext]
    exact iff_of_false (fun h => hne (List.prefix_nil.1 h)) (by simp)
  | cons c text ih =>
    rw [tryLonger, follows_cons_iff]
    by_cases hc : c = '/'
    · rw [if_neg (by simp [hc]), if_pos hc, Follows, ← ih, ← hnext text]
      cases hverdict : next text with
      | matched => simp
      | refused => simp
      | exhausted =>
        -- No rest of the text is long enough.
        have hlength := hshort text hverdict
        refine iff_of_false nofun ?_
        rintro (h | h)
        · cases h
        · have hle := Follows.length_le (Or.inr (ih.1 h))
          omega
    · rw [if_pos (by simpa using hc), if_neg hc]
      exact ih

theorem tryRuns_eq_matched_iff {chars : List Char} (hne : chars ≠ []) {next : List Char → Verdict}
    (hnext : ∀ text, next text = .matched ↔ chars <+: text)
    (hshort : ∀ text, next text = .exhausted → text.length < chars.length) (text : List Char) :
    tryRuns true next text = .matched ↔ Follows chars text := by
  rw [tryRuns, Follows, ← hnext text]
  cases hverdict : next text with
  | matched => simp
  | refused => simp [tryLonger_eq_matched_iff hne hnext hshort]
  | exhausted =>
    have hlength := hshort text hverdict
    refine iff_of_false nofun ?_
    rintro (h | h)
    · cases h
    · have hle := Follows.length_le (Or.inr h)
      omega

end FeatureDigest.Glob

namespace FeatureDigest

/-! ## Pieces -/

/-- A piece that is not the last one ends with a slash, and begins the text or follows a slash. -/
theorem mem_dropLast_splitSlash_iff {piece : Piece} (h : '/' ∉ piece) {text : List Char} :
    piece ∈ (splitSlash text).dropLast ↔ Glob.Follows (piece ++ ['/']) text := by
  have hdrop (front rest : List Char) : (splitSlash (front ++ '/' :: rest)).dropLast
      = splitSlash front ++ (splitSlash rest).dropLast := by
    rw [splitSlash_append, List.dropLast_append_of_ne_nil (splitSlash_ne_nil rest)]
  constructor
  · intro hmem
    have hsplit := joinSlash_splitSlash text
    obtain ⟨before, after, hpieces⟩ := List.append_of_mem hmem
    have hlast := List.dropLast_concat_getLast (splitSlash_ne_nil text)
    rw [hpieces, List.append_assoc, List.cons_append] at hlast
    rw [← hlast] at hsplit
    have hne : after ++ [(splitSlash text).getLast (splitSlash_ne_nil text)] ≠ [] := by simp
    generalize after ++ [(splitSlash text).getLast (splitSlash_ne_nil text)] = later at hsplit hne
    have htail : joinSlash (piece :: later) = piece ++ '/' :: joinSlash later :=
      joinSlash_append (List.cons_ne_nil piece []) hne
    by_cases hbefore : before = []
    · rw [hbefore, List.nil_append, htail] at hsplit
      exact Or.inl ⟨joinSlash later, by rw [← hsplit]; simp⟩
    · rw [joinSlash_append hbefore (List.cons_ne_nil _ _), htail] at hsplit
      exact Or.inr ⟨joinSlash before, _, hsplit.symm, ⟨joinSlash later, by simp⟩⟩
  · rintro (⟨rest, rfl⟩ | ⟨front, _, rfl, ⟨rest, rfl⟩⟩)
    · rw [List.append_assoc, List.singleton_append, hdrop, splitSlash_of_not_mem h]
      exact List.mem_append_left _ List.mem_cons_self
    · rw [hdrop, List.append_assoc, List.singleton_append, hdrop, splitSlash_of_not_mem h]
      exact List.mem_append_right _ (List.mem_append_left _ List.mem_cons_self)

namespace Glob

/-- The pattern of what is in a folder at the front matches the texts that begin with the name and
a slash. -/
theorem matches_front_iff {word : List Char} {source text : String} :
    (⟨source, folderTokens word⟩ : Pattern).matches text = true
      ↔ word ++ ['/'] <+: text.toList := by
  rw [Pattern.matches, beq_iff_eq]
  exact (tryTokens_chars (word ++ ['/']) text.toList).1

/-- The pattern of what is in a folder anywhere matches the texts with the name as a piece that is
not the last one. -/
theorem matches_anywhere_iff {word : List Char} (h : '/' ∉ word) {source text : String} :
    (⟨source, .anyComponents :: folderTokens word⟩ : Pattern).matches text = true
      ↔ word ∈ (splitSlash text.toList).dropLast := by
  have hchars := tryTokens_chars (word ++ ['/'])
  rw [Pattern.matches, beq_iff_eq, mem_dropLast_splitSlash_iff h, tryTokens]
  exact tryRuns_eq_matched_iff (by simp) (fun rest => (hchars rest).1)
    (fun rest => (hchars rest).2) text.toList

/-! ## Longer texts -/

/-- The pattern matches every text that goes on from one that it matches. -/
def Pattern.Grows (pattern : Pattern) : Prop :=
  ∀ text more : String, text.toList <+: more.toList →
    pattern.matches text = true → pattern.matches more = true

theorem grows_front (source : String) (word : List Char) :
    (⟨source, folderTokens word⟩ : Pattern).Grows :=
  fun _ _ hmore hmatches => matches_front_iff.2 ((matches_front_iff.1 hmatches).trans hmore)

theorem grows_anywhere (source : String) {word : List Char} (h : '/' ∉ word) :
    (⟨source, .anyComponents :: folderTokens word⟩ : Pattern).Grows := by
  intro text more hmore hmatches
  rw [matches_anywhere_iff h, mem_dropLast_splitSlash_iff h] at hmatches ⊢
  exact hmatches.of_prefix hmore

end Glob

end FeatureDigest
