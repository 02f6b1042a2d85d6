import Astrid.Capability.Token

/-!
# Static capabilities

`astrid-core`, `capability_grammar.rs`. A static capability is a list of segments between
colons, and a pattern may have `*` for a segment: the last `*` stands for one or more
segments, any other for exactly one. Callers ask `capability_matches` about a pattern on the
right too, as a test that it covers no more than the pattern on the left. It is one: whatever
the two patterns are, the right one has an instance on which the left one answers as it does
for the pattern itself.
-/

namespace Astrid.Capability

open List

inductive CapabilityGrammarError
  | empty
  | tooLong
  | doubleStar
  | emptySegment
  | invalidCharacter (segment : Text) (bad : Char)
  | partialStar (segment : Text)

def maxCapabilityLen : Nat := 256

def star : Text := ['*']

def segmentCharacter (c : Char) : Bool := c.isAlphanum || c == '-' || c == '_'

def validateSegment (segment : Text) : Except CapabilityGrammarError Unit := do
  require (segment ≠ []) .emptySegment
  if segment = star then pure ()
  else
    require ('*' ∉ segment) (.partialStar segment)
    match segment.find? fun c => !segmentCharacter c with
    | some bad => .error (.invalidCharacter segment bad)
    | none => pure ()

def validateCapability (cap : Text) : Except CapabilityGrammarError Unit := do
  require (cap ≠ []) .empty
  require ((utf8 cap).length ≤ maxCapabilityLen) .tooLong
  require (¬['*', '*'] <:+: cap) .doubleStar
  (cap.splitOn ':').forM validateSegment

/-- The loop of `capability_matches` over the segments of both. -/
def matchSegments : List Text → List Text → Bool
  | p :: pattern, c :: cap =>
    if p = star then pattern.isEmpty || matchSegments pattern cap
    else p == c && matchSegments pattern cap
  | [], [] => true
  | _, _ => false

def capabilityMatches (pattern cap : Text) : Bool :=
  pattern == star || matchSegments (pattern.splitOn ':') (cap.splitOn ':')

/-! ## What is valid -/

variable {segment cap pattern : Text} {p q segments : List Text}

theorem validateSegment_eq_ok : validateSegment segment = .ok () ↔
    segment = star ∨ segment ≠ [] ∧ ∀ c ∈ segment, segmentCharacter c = true := by
  unfold validateSegment
  simp only [bind_eq_ok, require_eq_ok, exists_const]
  split
  · next hstar => simp [hstar, star, pure, Except.pure]
  next hstar =>
  have hword : (∀ c ∈ segment, segmentCharacter c = true) → '*' ∉ segment :=
    fun hall hmem => absurd (hall _ hmem) (by decide)
  simp only [hstar, false_or, bind_eq_ok, require_eq_ok, exists_const]
  split
  · next bad hbad =>
    grind
  next hnone =>
  simp only [pure, Except.pure]
  grind

theorem validateCapability_eq_ok : validateCapability cap = .ok () ↔
    cap ≠ [] ∧ (utf8 cap).length ≤ maxCapabilityLen ∧ ¬['*', '*'] <:+: cap ∧
      ∀ segment ∈ cap.splitOn ':', validateSegment segment = .ok () := by
  simp only [validateCapability, bind_eq_ok, require_eq_ok, forM_eq_ok, exists_const]

/-! ## Matching -/

/-- The shortcut for `*` agrees with the loop. -/
theorem capabilityMatches_eq :
    capabilityMatches pattern cap = matchSegments (pattern.splitOn ':') (cap.splitOn ':') := by
  unfold capabilityMatches
  by_cases hstar : pattern = star
  · obtain ⟨_, _, hcap⟩ := exists_cons_of_ne_nil (splitOn_ne_nil ':' cap)
    rw [hstar, hcap]
    rfl
  · rw [beq_eq_false_iff_ne.2 hstar, Bool.false_or]

theorem matchSegments_refl (p : List Text) : matchSegments p p = true := by
  induction p with
  | nil => rfl
  | cons _ _ ih => simp [matchSegments, ih]

theorem matchSegments_trans {c : List Text} (hpq : matchSegments p q = true)
    (hqc : matchSegments q c = true) : matchSegments p c = true := by
  fun_induction matchSegments p q generalizing c with
  | case1 pattern _ cap =>
    -- A last `*` covers whatever `q` still has, and `c` has as much left.
    cases c with
    | nil => simp [matchSegments] at hqc
    | cons => cases pattern <;> cases cap <;> grind [matchSegments]
  | case2 => cases c <;> grind [matchSegments]
  | case3 => exact hqc
  | case4 => cases hpq

/-! ## An instance that tells apart -/

/-- A segment for a `*` that a given segment of another pattern does not name. -/
def fill (other : Option Text) : Text := if other = some ['a'] then ['b'] else ['a']

/-- An instance of `q`, other than `p` names wherever `p` names a segment. -/
def instanceOf : List Text → List Text → List Text
  | _, [] => []
  | p, segment :: q =>
    (if segment = star then fill p.head? else segment) :: instanceOf p.tail q

theorem fill_cases (other : Option Text) : fill other = ['a'] ∨ fill other = ['b'] := by
  unfold fill
  split <;> simp

theorem matchSegments_instanceOf (p q : List Text) : matchSegments q (instanceOf p q) = true := by
  induction q generalizing p with
  | nil => rfl
  | cons segment _ ih =>
    by_cases hstar : segment = star <;> simp [matchSegments, instanceOf, hstar, ih]

theorem matchSegments_instanceOf_eq (p q : List Text) :
    matchSegments p (instanceOf p q) = matchSegments p q := by
  induction q generalizing p with
  | nil => rfl
  | cons segment _ ih =>
    cases p with
    | nil => rfl
    | cons s =>
      have hfill : s ≠ fill (some s) := by
        unfold fill
        grind
      by_cases hstar : segment = star
      · by_cases hs : s = star
        · simp [matchSegments, instanceOf, hs, ih]
        · simp [matchSegments, instanceOf, hstar, hs, beq_eq_false_iff_ne.2 hfill]
      · simp [matchSegments, instanceOf, hstar, ih]

/-- An instance has named segments only. -/
theorem instanceOf_named (hq : ∀ segment ∈ q, validateSegment segment = .ok ()) (p : List Text) :
    ∀ segment ∈ instanceOf p q, segment ≠ [] ∧ ∀ c ∈ segment, segmentCharacter c = true := by
  induction q generalizing p with
  | nil => exact fun _ h => absurd h not_mem_nil
  | cons _ _ ih =>
    obtain ⟨hsegment, hq⟩ := forall_mem_cons.1 hq
    refine forall_mem_cons.2 ⟨?_, ih hq _⟩
    split_ifs with hstar
    · obtain h | h := fill_cases p.head? <;> simp [h, segmentCharacter]
    · exact (validateSegment_eq_ok.1 hsegment).resolve_left hstar

/-- The instance is as long as the pattern: every `*` gives way to one letter. -/
theorem utf8_instanceOf (p q : List Text) :
    (utf8 ([':'].intercalate (instanceOf p q))).length = (utf8 ([':'].intercalate q)).length := by
  have hsegment : ∀ (other : Option Text) (segment : Text),
      (utf8 (if segment = star then fill other else segment)).length = (utf8 segment).length := by
    intro other segment
    split
    · next hstar =>
      rw [hstar]
      obtain h | h := fill_cases other <;> rw [h] <;> rfl
    · rfl
  induction q generalizing p with
  | nil => rfl
  | cons segment q ih =>
    cases q with
    | nil => simpa [instanceOf] using hsegment p.head? segment
    | cons =>
      have := ih p.tail
      have := hsegment p.head? segment
      simp only [instanceOf, intercalate_cons_cons, utf8, flatMap_append, length_append] at *
      omega

theorem mem_intercalate_colon {c : Char} (h : c ∈ [':'].intercalate segments) :
    c = ':' ∨ ∃ segment ∈ segments, c ∈ segment := by
  induction segments with
  | nil => exact absurd h not_mem_nil
  | cons segment segments =>
    cases segments with
    | nil => exact .inr ⟨segment, mem_cons_self, by simpa using h⟩
    | cons =>
      rw [intercalate_cons_cons] at h
      grind

/-- Every valid pattern has a concrete capability that it matches and that another pattern
matches just when it matches the pattern. -/
theorem exists_instance (hq : validateCapability cap = .ok ()) (pattern : Text) :
    ∃ c, validateCapability c = .ok () ∧ '*' ∉ c ∧ capabilityMatches cap c = true ∧
      capabilityMatches pattern c = capabilityMatches pattern cap := by
  obtain ⟨-, hlen, -, hsegments⟩ := validateCapability_eq_ok.1 hq
  have hnamed := instanceOf_named hsegments (pattern.splitOn ':')
  have hutf8 := utf8_instanceOf (pattern.splitOn ':') (cap.splitOn ':')
  have hmatch := matchSegments_instanceOf (pattern.splitOn ':') (cap.splitOn ':')
  have hagree := matchSegments_instanceOf_eq (pattern.splitOn ':') (cap.splitOn ':')
  have hne : instanceOf (pattern.splitOn ':') (cap.splitOn ':') ≠ [] := by
    obtain ⟨_, _, hsplit⟩ := exists_cons_of_ne_nil (splitOn_ne_nil ':' cap)
    rw [hsplit]
    exact cons_ne_nil _ _
  rw [intercalate_splitOn] at hutf8
  generalize instanceOf (pattern.splitOn ':') (cap.splitOn ':') = segments at *
  have hword : ∀ c, segmentCharacter c = false → ∀ segment ∈ segments, c ∉ segment := by
    intro c hc segment hsegment hmem
    rw [(hnamed segment hsegment).2 c hmem] at hc
    cases hc
  have hback := splitOn_intercalate ':' (hword ':' (by decide)) hne
  have hstar : '*' ∉ [':'].intercalate segments := by
    intro hmem
    obtain h | ⟨segment, hsegment, h⟩ := mem_intercalate_colon hmem
    · cases h
    · exact hword _ (by decide) segment hsegment h
  refine ⟨_, validateCapability_eq_ok.2 ⟨fun hnil => ?_, hutf8 ▸ hlen,
    fun h => hstar (h.subset mem_cons_self), ?_⟩, hstar, ?_, ?_⟩
  · rw [hnil] at hback
    exact (hnamed [] (hback ▸ mem_cons_self)).1 rfl
  · rw [hback]
    exact fun segment h => validateSegment_eq_ok.2 (.inr (hnamed segment h))
  · rw [capabilityMatches_eq, hback, hmatch]
  · rw [capabilityMatches_eq, hback, hagree, capabilityMatches_eq]

/-- Matching is inclusion: a pattern matches a valid pattern just when it matches every
concrete capability that the other matches. It is reflexive and transitive. -/
theorem capabilityMatches_iff_included {p q : Text} (hq : validateCapability q = .ok ()) :
    (capabilityMatches p q = true ↔ ∀ c, validateCapability c = .ok () → '*' ∉ c →
      capabilityMatches q c = true → capabilityMatches p c = true) ∧
    capabilityMatches p p = true ∧
    ∀ r, capabilityMatches p q = true → capabilityMatches q r = true →
      capabilityMatches p r = true := by
  have htrans : ∀ r, capabilityMatches p q = true → capabilityMatches q r = true →
      capabilityMatches p r = true := by
    simp only [capabilityMatches_eq]
    exact fun r => matchSegments_trans
  refine ⟨⟨fun h c _ _ hc => htrans c h hc, fun h => ?_⟩, ?_, htrans⟩
  · obtain ⟨c, hc, hstar, hqc, hpc⟩ := exists_instance hq p
    rw [← hpc]
    exact h c hc hstar hqc
  · rw [capabilityMatches_eq]
    exact matchSegments_refl _

/-- `a:*` covers `a:*:b`. -/
theorem trailing_includes_middle :
    validateCapability ['a', ':', '*', ':', 'b'] = .ok () ∧
      ∀ c, validateCapability c = .ok () → '*' ∉ c →
        capabilityMatches ['a', ':', '*', ':', 'b'] c = true →
          capabilityMatches ['a', ':', '*'] c = true :=
  ⟨rfl, (capabilityMatches_iff_included rfl).1.1 rfl⟩

end Astrid.Capability
