import Astrid.Capability.Grammar

/-!
# Topic patterns

`astrid-events`, `route/matcher.rs` (`topic_pattern_matches`) and `bus.rs`
(`EventReceiver::matches`), and `astrid-capsule`, `host/ipc.rs` (`check_subscribe_acl`). A topic
is a list of segments between dots. As in a static capability the last `*` of a pattern stands
for one or more segments and any other for exactly one, but a `*` alone stands for one segment
only. The check of a subscription asks the matcher about the requested pattern as if it were a
topic; that it admits no more than it should is inclusion of what the two patterns match.
-/

namespace Astrid.Bus

open List
open Capability

def maxTopicDepth : Nat := 20

def segments (text : Text) : List Text := text.splitOn '.'

/-- `strip_suffix(".*")` -/
def stripTrailing (pattern : Text) : Option Text :=
  if ['.', '*'] <:+ pattern then some (pattern.take (pattern.length - 2)) else none

/-- Segment by segment, as far as both go. -/
def pairsMatch (pattern topic : List Text) : Bool :=
  (pattern.zip topic).all fun (p, t) => p == Capability.star || p == t

def topicPatternMatches (pattern topic : Text) : Bool :=
  if maxTopicDepth < (segments topic).length then false
  else
    match stripTrailing pattern with
    | some front => decide ((segments front).length < (segments topic).length) &&
        pairsMatch (segments front) (segments topic)
    | none => (segments pattern).length == (segments topic).length &&
        pairsMatch (segments pattern) (segments topic)

inductive ErrorCode
  | capabilityDenied

def checkSubscribeAcl (ipcSubscribePatterns : List Text) (topicPattern : Text) :
    Except ErrorCode Unit := do
  require (¬ ipcSubscribePatterns.isEmpty) .capabilityDenied
  require (ipcSubscribePatterns.any fun acl => topicPatternMatches acl topicPattern)
    .capabilityDenied

inductive AstridEvent
  | ipc (topic : Text)
  | other

structure EventReceiver where
  topicPattern : Option Text

def EventReceiver.matches (self : EventReceiver) (event : AstridEvent) : Bool :=
  match self.topicPattern, event with
  | none, _ => true
  | some _, .other => false
  | some pattern, .ipc topic => topicPatternMatches pattern topic

/-! ## Segments -/

variable {pattern topic a r : Text}

theorem segments_star : segments Capability.star = [Capability.star] := rfl

theorem intercalate_segments (text : Text) : ['.'].intercalate (segments text) = text :=
  intercalate_splitOn '.'

theorem not_mem_segments (text : Text) : ∀ segment ∈ segments text, '.' ∉ segment := by
  unfold segments
  induction text with
  | nil => simp
  | cons c text ih =>
    obtain ⟨_, _, hsplit⟩ := exists_cons_of_ne_nil (splitOn_ne_nil '.' text)
    rw [hsplit, forall_mem_cons] at ih
    rw [splitOn_cons_eq_if_modifyHead, hsplit]
    split
    · exact forall_mem_cons.2 ⟨not_mem_nil, forall_mem_cons.2 ih⟩
    · next hc =>
      have hdot : '.' ≠ c := fun h => hc (beq_iff_eq.2 h.symm)
      exact forall_mem_cons.2 ⟨fun h => (mem_cons.1 h).elim hdot ih.1, ih.2⟩

/-- A last `*` behind other segments is a suffix that is stripped. -/
theorem suffix_of_segments {front : List Text} (hne : front ≠ []) :
    ['.', '*'] <:+ ['.'].intercalate (front ++ [Capability.star]) := by
  induction front with
  | nil => exact absurd rfl hne
  | cons segment front ih =>
    cases front with
    | nil => exact ⟨segment, by simp; rfl⟩
    | cons =>
      rw [cons_append, cons_append, intercalate_cons_cons]
      exact (ih (cons_ne_nil _ _)).trans (suffix_append _ _)

theorem pairsMatch_cons (p t : Text) (ps ts : List Text) : pairsMatch (p :: ps) (t :: ts) =
    ((p == Capability.star || p == t) && pairsMatch ps ts) := rfl

/-- The loop of the static capabilities goes pair by pair, up to a last `*`. -/
theorem matchSegments_eq (front : List Text) (trailing : Bool) (topic : List Text)
    (hlast : trailing = false → front.getLast? ≠ some Capability.star) :
    matchSegments (front ++ if trailing then [Capability.star] else []) topic =
      ((if trailing then decide (front.length < topic.length) else front.length == topic.length) &&
        pairsMatch front topic) := by
  induction front generalizing topic with
  | nil => cases trailing <;> cases topic <;> simp [matchSegments, pairsMatch]
  | cons segment front ih =>
    cases topic with
    | nil => cases trailing <;> simp [matchSegments]
    | cons _ topic =>
      cases front with
      | nil => cases trailing <;> grind [matchSegments, pairsMatch_cons]
      | cons =>
        have hrest := ih topic fun h => getLast?_cons_cons ▸ hlast h
        rw [cons_append, matchSegments, hrest, pairsMatch_cons]
        by_cases hstar : segment = Capability.star
        · cases trailing <;> simp [hstar]
        · cases trailing <;> simp [hstar, beq_eq_false_iff_ne.2 hstar, Bool.and_left_comm]

/-- Both branches are that loop, but for a `*` alone. -/
theorem topicPatternMatches_iff : topicPatternMatches pattern topic = true ↔
    (segments topic).length ≤ maxTopicDepth ∧
      matchSegments (segments pattern) (segments topic) = true ∧
        (pattern = Capability.star → (segments topic).length = 1) := by
  unfold topicPatternMatches
  split
  · next hdeep => simp [Nat.not_le.2 hdeep]
  next hdeep =>
  rw [and_iff_right (Nat.not_lt.1 hdeep)]
  unfold stripTrailing
  by_cases hsuffix : ['.', '*'] <:+ pattern
  · obtain ⟨front, rfl⟩ := hsuffix
    have hpattern : segments (front ++ ['.', '*']) = segments front ++ [Capability.star] :=
      splitOn_append_cons_self front ['*']
    have hlone : front ++ ['.', '*'] ≠ Capability.star := by
      intro h
      have hlength := congrArg length h
      rw [length_append] at hlength
      exact absurd (Nat.le_of_eq hlength) (by simp [Capability.star])
    have hloop := matchSegments_eq (segments front) true (segments topic) (by simp)
    simp_all
  · rw [if_neg hsuffix]
    by_cases hlone : pattern = Capability.star
    · obtain ⟨first, rest, hsplit⟩ := exists_cons_of_ne_nil (splitOn_ne_nil '.' topic)
      have hsegments : segments topic = first :: rest := hsplit
      simp [hlone, segments_star, hsegments, matchSegments, pairsMatch]
    · have hlast : (segments pattern).getLast? ≠ some Capability.star := by
        intro hlast
        obtain ⟨front, hfront⟩ := getLast?_eq_some_iff.1 hlast
        have hback := intercalate_segments pattern
        rw [hfront] at hback
        cases front with
        | nil => exact hlone (by simpa using hback.symm)
        | cons => exact hsuffix (hback ▸ suffix_of_segments (cons_ne_nil _ _))
      have hloop := matchSegments_eq (segments pattern) false (segments topic) fun _ => hlast
      simp_all

theorem topicPatternMatches_trans (har : topicPatternMatches a r = true)
    (hrt : topicPatternMatches r topic = true) : topicPatternMatches a topic = true := by
  obtain ⟨-, har, hlone⟩ := topicPatternMatches_iff.1 har
  obtain ⟨hdepth, hrt, hlone'⟩ := topicPatternMatches_iff.1 hrt
  refine topicPatternMatches_iff.2 ⟨hdepth, matchSegments_trans har hrt, fun ha => ?_⟩
  -- One segment is asked for: the pattern `r` is a segment, and names it or is a `*` alone.
  obtain ⟨segment, hr⟩ := length_eq_one_iff.1 (hlone ha)
  by_cases hstar : segment = Capability.star
  · have hback := intercalate_segments r
    exact hlone' (by simpa [hr, hstar] using hback.symm)
  · rw [hr] at hrt
    generalize segments topic = t at hrt
    cases t with
    | nil => cases hrt
    | cons _ rest => cases rest <;> simp_all [matchSegments]

/-! ## An instance -/

theorem length_instanceOf (p q : List Text) : (instanceOf p q).length = q.length := by
  induction q generalizing p with
  | nil => rfl
  | cons _ _ ih => simp [instanceOf, ih]

theorem mem_instanceOf {p q : List Text} {segment : Text} (h : segment ∈ instanceOf p q) :
    segment = ['a'] ∨ segment = ['b'] ∨ segment ∈ q ∧ segment ≠ Capability.star := by
  induction q generalizing p with
  | nil => cases h
  | cons =>
    rcases mem_cons.1 h with h | h
    · split at h
      · have := fill_cases p.head?
        grind
      · grind
    · grind

/-- Every pattern matches a topic that another pattern matches only if it matches the pattern. -/
theorem exists_topic (hr : (segments r).length ≤ maxTopicDepth) (a : Text) :
    ∃ topic, Capability.star ∉ segments topic ∧ topicPatternMatches r topic = true ∧
      (topicPatternMatches a topic = true → topicPatternMatches a r = true) := by
  have hlength := length_instanceOf (segments a) (segments r)
  have hback : segments (['.'].intercalate (instanceOf (segments a) (segments r))) =
      instanceOf (segments a) (segments r) := by
    refine splitOn_intercalate '.' (fun segment h => ?_) fun hnil => ?_
    · obtain rfl | rfl | h := mem_instanceOf h
      · decide
      · decide
      · exact not_mem_segments r segment h.1
    · rw [hnil] at hlength
      exact splitOn_ne_nil '.' r (length_eq_zero_iff.1 hlength.symm)
  refine ⟨['.'].intercalate (instanceOf (segments a) (segments r)), ?_, ?_, ?_⟩
  · rw [hback]
    intro hmem
    obtain h | h | h := mem_instanceOf hmem
    · cases h
    · cases h
    · exact h.2 rfl
  · rw [topicPatternMatches_iff, hback, hlength]
    exact ⟨hr, matchSegments_instanceOf _ _, fun hstar => by rw [hstar]; rfl⟩
  · rw [topicPatternMatches_iff, topicPatternMatches_iff, hback, hlength,
      matchSegments_instanceOf_eq]
    exact id

/-- Matching a pattern is inclusion of what it matches, so a subscription that is admitted
receives topics of the declared patterns only. -/
theorem subscription_included (hr : (segments r).length ≤ maxTopicDepth) :
    (∀ a, topicPatternMatches a r = true ↔ ∀ topic, Capability.star ∉ segments topic →
      topicPatternMatches r topic = true → topicPatternMatches a topic = true) ∧
    (∀ a topic, topicPatternMatches a r = true → topicPatternMatches r topic = true →
      topicPatternMatches a topic = true) ∧
    ∀ declared event, checkSubscribeAcl declared r = .ok () →
      EventReceiver.matches ⟨some r⟩ event = true →
        ∃ topic, event = .ipc topic ∧ ∃ acl ∈ declared, topicPatternMatches acl topic = true := by
  refine ⟨fun a => ⟨fun h topic _ ht => topicPatternMatches_trans h ht, fun h => ?_⟩,
    fun a topic => topicPatternMatches_trans, fun declared event hacl hevent => ?_⟩
  · obtain ⟨topic, hstar, ht, hback⟩ := exists_topic hr a
    exact hback (h topic hstar ht)
  · simp only [checkSubscribeAcl, bind_eq_ok, require_eq_ok, any_eq_true] at hacl
    obtain ⟨_, _, acl, hmem, hacl⟩ := hacl
    cases event with
    | ipc topic => exact ⟨topic, rfl, acl, hmem, topicPatternMatches_trans hacl hevent⟩
    | other => cases hevent

/-- What `a.*.b.*` matches, `a.*` matches too, but not the other way round. -/
theorem subtree_subscription_included :
    let requested := "a.*.b.*".toList
    (segments requested).length ≤ maxTopicDepth ∧
    (∀ topic, Capability.star ∉ segments topic → topicPatternMatches requested topic = true →
      topicPatternMatches "a.*".toList topic = true) ∧
    ¬ ∀ topic, Capability.star ∉ segments topic → topicPatternMatches "a.*".toList topic = true →
      topicPatternMatches requested topic = true := by
  have hdeep : (segments "a.*.b.*".toList).length ≤ maxTopicDepth := by decide
  have hwide : (segments "a.*".toList).length ≤ maxTopicDepth := by decide
  refine ⟨hdeep, ((subscription_included hdeep).1 _).1 (by decide), ?_⟩
  rw [← (subscription_included hwide).1]
  decide

end Astrid.Bus
