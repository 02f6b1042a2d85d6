import Astrid.Capability.Token

/-!
# Persisted tokens

A token that is written and read back has all its fields, and its signature still covers the
same bytes. Its pattern is built again from its text. So it grants the same, unless the
pattern was taken literally and its text has glob characters: then it comes back as a glob,
if it comes back at all.
-/

namespace Astrid.Capability

variable {globs : Globset}

namespace ResourcePattern

variable {p : ResourcePattern globs}

theorem ext_isGlob {p' : ResourcePattern globs} (hpattern : p.pattern = p'.pattern)
    (hglob : p.isGlob = p'.isGlob) : p = p' := by
  cases p
  cases p'
  cases hpattern
  cases hglob
  rfl

/-- `new` takes a text with glob characters as a glob, and any other literally. -/
theorem new_eq_ok {text : Text} :
    new globs text = .ok p ↔ p.pattern = text ∧ p.isGlob = hasGlobCharacters text := by
  unfold new
  constructor
  · intro h
    split at h
    next htraversal =>
      split at h
      next hglob =>
        split at h
        next =>
          cases h
          exact ⟨rfl, hglob.symm⟩
        next => cases h
      next hglob =>
        cases h
        exact ⟨rfl, (Bool.eq_false_of_not_eq_true hglob).symm⟩
    next => cases h
  · rintro ⟨rfl, hglob⟩
    rw [dif_pos p.no_traversal]
    split
    next hcharacters =>
      rw [hcharacters] at hglob
      split
      next => exact congrArg Except.ok (ext_isGlob rfl hglob.symm)
      next e herror =>
        rw [(p.compiles hglob).2] at herror
        cases herror
    next hcharacters =>
      rw [Bool.eq_false_of_not_eq_true hcharacters] at hglob
      exact congrArg Except.ok (ext_isGlob rfl hglob.symm)

theorem exact_eq_ok {text : Text} :
    exact globs text = .ok p ↔ p.pattern = text ∧ p.isGlob = false := by
  unfold exact
  constructor
  · intro h
    split at h
    next =>
      cases h
      exact ⟨rfl, rfl⟩
    next => cases h
  · rintro ⟨rfl, hglob⟩
    rw [dif_pos p.no_traversal]
    exact congrArg Except.ok (ext_isGlob rfl hglob.symm)

/-- Every pattern is built by a constructor, so results for all patterns are about these. -/
theorem built (p : ResourcePattern globs) : p.Built := by
  cases hglob : p.isGlob with
  | true => exact .new (new_eq_ok.2 ⟨rfl, hglob.trans (p.compiles hglob).1.symm⟩)
  | false => exact .exact (exact_eq_ok.2 ⟨rfl, hglob⟩)

variable {resource : Text}

theorem matches_of_isGlob (hglob : p.isGlob = true)
    (htraversal : containsPathTraversal resource = false) :
    p.matches resource = globs.isMatch p.pattern resource := by
  simp [«matches», hglob, htraversal]

theorem matches_of_literal (hglob : p.isGlob = false)
    (htraversal : containsPathTraversal resource = false) :
    p.matches resource = (p.pattern == resource) := by
  simp [«matches», hglob, htraversal]

variable (p : ResourcePattern globs)

theorem matches_of_traversal (htraversal : containsPathTraversal resource = true) :
    p.matches resource = false := by
  simp [«matches», htraversal]

/-- When a pattern means the same once it is read back from its text: it is a glob, or its
text has no glob characters, or the glob of its text happens to match that text only. -/
def ReadsBack : Prop :=
  p.isGlob = true ∨ hasGlobCharacters p.pattern = false ∨ globs.compile p.pattern = .ok () ∧
      ∀ resource, containsPathTraversal resource = false →
        globs.isMatch p.pattern resource = (p.pattern == resource)

theorem readsBack_iff :
    p.ReadsBack ↔ ∃ p', new globs p.pattern = .ok p' ∧
      ∀ resource, p'.matches resource = p.matches resource := by
  constructor
  · intro h
    by_cases hsame : p.isGlob = hasGlobCharacters p.pattern
    · exact ⟨p, new_eq_ok.2 ⟨rfl, hsame⟩, fun _ => rfl⟩
    -- Only a literal pattern with glob characters is read back as something else.
    have hliteral : p.isGlob = false := by
      cases hglob : p.isGlob with
      | false => rfl
      | true => exact absurd (hglob.trans (p.compiles hglob).1.symm) hsame
    have hcharacters : hasGlobCharacters p.pattern = true := by
      rw [hliteral] at hsame
      exact (Bool.eq_true_of_not_eq_false fun h => hsame h.symm)
    rcases h with hglob | hnone | ⟨hcompile, hmatch⟩
    · rw [hliteral] at hglob
      cases hglob
    · rw [hcharacters] at hnone
      cases hnone
    · refine ⟨⟨p.pattern, true, p.no_traversal, fun _ => ⟨hcharacters, hcompile⟩⟩,
        new_eq_ok.2 ⟨rfl, hcharacters.symm⟩, fun resource => ?_⟩
      cases htraversal : containsPathTraversal resource with
      | true => rw [matches_of_traversal _ htraversal, matches_of_traversal _ htraversal]
      | false =>
        rw [matches_of_isGlob rfl htraversal, matches_of_literal hliteral htraversal]
        exact hmatch resource htraversal
  · intro ⟨p', hnew, hmatches⟩
    obtain ⟨hpattern, hglob⟩ := new_eq_ok.1 hnew
    by_cases hp : p.isGlob = true
    · exact .inl hp
    by_cases hcharacters : hasGlobCharacters p.pattern = true
    · rw [hcharacters] at hglob
      refine .inr (.inr ⟨hpattern ▸ (p'.compiles hglob).2, fun resource htraversal => ?_⟩)
      have hsame := hmatches resource
      rw [matches_of_isGlob hglob htraversal,
        matches_of_literal (Bool.eq_false_of_not_eq_true hp) htraversal, hpattern] at hsame
      exact hsame
    · exact .inr (.inl (Bool.eq_false_of_not_eq_true hcharacters))

end ResourcePattern

/-! ## Tokens -/

/-- Written and read back, a token verifies as before and grants the same. -/
def CapabilityToken.Survives (verify : Verify) (token : CapabilityToken globs) : Prop :=
  ∃ token', CapabilityToken.deserialize globs token.serialize = .ok token' ∧
    token'.verifySignature verify = token.verifySignature verify ∧
    ∀ resource permission, token'.grants resource permission = token.grants resource permission

theorem CapabilityToken.deserialize_of_new {stored : StoredToken} {p : ResourcePattern globs}
    (h : ResourcePattern.new globs stored.resource = .ok p) :
    CapabilityToken.deserialize globs stored = .ok ⟨stored.toTokenFields, p⟩ := by
  unfold CapabilityToken.deserialize
  rw [h]

/-- A token for a pattern and a permission. -/
def tokenFor (p : ResourcePattern globs) (permission : Permission) : CapabilityToken globs :=
  ⟨⟨0, [permission], 0, none, .persistent, [], [], 0, false, ⟨['a'], by decide⟩, []⟩, p⟩

/-- The tokens with a pattern survive persistence exactly if the pattern does. -/
theorem tokens_survive_iff (verify : Verify) (p : ResourcePattern globs) :
    (∀ token : CapabilityToken globs, token.resource = p → token.Survives verify) ↔
      p.ReadsBack := by
  rw [ResourcePattern.readsBack_iff]
  constructor
  · intro h
    obtain ⟨_, hread, _, hgrants⟩ := h (tokenFor p .read) rfl
    unfold CapabilityToken.deserialize at hread
    split at hread
    next p' hnew =>
      cases hread
      refine ⟨p', hnew, fun resource => ?_⟩
      have hsame := hgrants resource .read
      simpa [CapabilityToken.grants, CapabilityToken.serialize, tokenFor] using hsame
    next => cases hread
  · rintro ⟨p', hnew, hmatches⟩ token rfl
    have hpattern := (ResourcePattern.new_eq_ok.1 hnew).1
    refine ⟨⟨token.toTokenFields, p'⟩, ?_, ?_, fun resource permission => ?_⟩
    · exact CapabilityToken.deserialize_of_new hnew
    · unfold CapabilityToken.verifySignature
      rw [hpattern]
    · unfold CapabilityToken.grants
      rw [hmatches]

/-- A `globset` where `*` stands for any text, and there is nothing else. -/
def starMatch : Text → Text → Bool
  | [], resource => resource.isEmpty
  | '*' :: pattern, resource => resource.tails.any (starMatch pattern)
  | _ :: _, [] => false
  | c :: pattern, c' :: resource => c == c' && starMatch pattern resource

def starGlobs : Globset := ⟨fun _ => .ok (), starMatch⟩

def readTool : Text := ['r', 'e', 'a', 'd', '_', '*']

def readFile : Text :=
  ['m', 'c', 'p', ':', '/', '/', 'f', 's', ':', 'r', 'e', 'a', 'd', '_', 'f', 'i', 'l', 'e']

/-- The pattern for the one tool called `read_*`. -/
def readPattern : ResourcePattern starGlobs where
  pattern := ['m', 'c', 'p', ':', '/', '/'] ++ ['f', 's'] ++ [':'] ++ readTool
  isGlob := false
  no_traversal := by decide
  compiles h := by cases h

/-- The pattern for all tools whose names start with `read_`. -/
def readGlob : ResourcePattern starGlobs where
  pattern := readPattern.pattern
  isGlob := true
  no_traversal := readPattern.no_traversal
  compiles _ := ⟨by decide, rfl⟩

/-- A token for the one tool comes back as a token for all of them. -/
theorem mcpTool_widened :
    ResourcePattern.mcpTool starGlobs ['f', 's'] readTool = .ok readPattern ∧
      CapabilityToken.deserialize starGlobs (tokenFor readPattern .invoke).serialize =
        .ok (tokenFor readGlob .invoke) ∧
      (tokenFor readPattern .invoke).grants readFile .invoke = false ∧
      (tokenFor readGlob .invoke).grants readFile .invoke = true := by
  have hnew : ResourcePattern.new starGlobs readPattern.pattern = .ok readGlob :=
    ResourcePattern.new_eq_ok.2 ⟨rfl, by decide⟩
  refine ⟨ResourcePattern.exact_eq_ok.2 ⟨rfl, rfl⟩, ?_, by decide, by decide⟩
  exact CapabilityToken.deserialize_of_new hnew

end Astrid.Capability
