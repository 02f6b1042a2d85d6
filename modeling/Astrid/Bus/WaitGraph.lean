import Astrid.Lib.Closure
import Astrid.Lib.Loop

/-!
# The wait graph

`astrid-capsule`, `dispatcher/wait_graph.rs`. A consumer that waits for a place in another's queue
holds a guard for the edge from it to the other; `enter` refuses a wait when its search from the
target meets the source, and a dropped guard takes back one count of its edge. Every call holds the
lock of the edges to its end, so a run is a list of calls. The state has the live guards beside the
counts the source keeps.
-/

namespace Astrid.WaitGraph

open List Relation

variable {κ : Type} [Key κ]

/-- How often each edge is waited on. -/
abbrev Edges (κ : Type) [Key κ] := FMap (κ × κ) Nat

def Waits (edges : Edges κ) (source target : κ) : Prop := (source, target) ∈ edges

def targets (edges : Edges κ) (node : κ) : List κ :=
  (edges.keys.filter fun edge => edge.1 = node).map Prod.snd

/-- One turn of the search over what is pending and what is seen; `false` is a cycle. -/
def searchTurn (edges : Edges κ) (source : κ) : List κ × List κ → Turn (List κ × List κ) Bool
  | ([], _) => .stop true
  | (node :: pending, seen) =>
    if node = source then .stop false
    else if node ∈ seen then .again (pending, seen)
    else .again (targets edges node ++ pending, node :: seen)

/-- The edges out of a node that is seen now no longer leave an unseen one. -/
theorem length_filter_seen {node : κ} {seen : List κ} (hnew : node ∉ seen) (l : List (κ × κ)) :
    (l.filter fun edge => edge.1 = node).length +
      (l.filter fun edge => edge.1 ∉ node :: seen).length ≤
        (l.filter fun edge => edge.1 ∉ seen).length := by
  induction l with
  | nil => simp
  | cons edge =>
    by_cases hedge : edge.1 = node
    · simp_all
      omega
    · by_cases hseen : edge.1 ∈ seen
      · simp_all
      · simp_all
        omega

theorem searchTurn_again {edges : Edges κ} {source : κ} {s s' : List κ × List κ}
    (h : searchTurn edges source s = .again s') :
    s'.1.length + (edges.keys.filter fun edge => edge.1 ∉ s'.2).length <
      s.1.length + (edges.keys.filter fun edge => edge.1 ∉ s.2).length := by
  obtain ⟨pending, _⟩ := s
  cases pending with
  | nil => cases h
  | cons =>
    simp only [searchTurn] at h
    split_ifs at h with hsource hseen
    · cases h
      simp
    · cases h
      have := length_filter_seen hseen edges.keys
      simp only [length_append, targets, length_map, length_cons]
      omega

def searchLoop (edges : Edges κ) (source : κ) : Loop (List κ × List κ) Bool where
  turn := searchTurn edges source
  size s := s.1.length + (edges.keys.filter fun edge => edge.1 ∉ s.2).length
  shrinks := searchTurn_again

def enter (edges : Edges κ) (source target : κ) : Option (Edges κ) :=
  if (searchLoop edges source).run ([target], []) then
    some (edges.insert (source, target) (edges[(source, target)]?.getD 0 + 1))
  else none

/-- `WaitGuard::drop` -/
def leave (edges : Edges κ) (edge : κ × κ) : Edges κ :=
  match edges[edge]? with
  | none => edges
  | some count => if count - 1 = 0 then edges.erase edge else edges.insert edge (count - 1)

/-- What a run of `enter`s and drops, in any order, comes to: the counts and the live guards. -/
inductive Reached : Edges κ → Multiset (κ × κ) → Prop
  | new : Reached ∅ 0
  | enter {edges edges' guards source target} (h : Reached edges guards)
      (henter : enter edges source target = some edges') :
      Reached edges' ((source, target) ::ₘ guards)
  | drop {edges guards edge} (h : Reached edges guards) (hlive : edge ∈ guards) :
      Reached (leave edges edge) (guards.erase edge)

/-! ## The search -/

variable {edges edges' : Edges κ} {source target : κ}

theorem mem_targets {a b : κ} : b ∈ targets edges a ↔ Waits edges a b := by
  simp [targets, Waits]

/-- The search meets the source exactly when the target already waits for it. -/
theorem search_eq_true : (searchLoop edges source).run ([target], []) = true ↔
    ¬ ReflTransGen (Waits edges) target source := by
  -- What is seen or pending is reached from the target, and what follows a seen node is too.
  let I : List κ × List κ → Prop := fun s => target ∈ s.2 ++ s.1 ∧ source ∉ s.2 ∧
    (∀ a ∈ s.2 ++ s.1, ReflTransGen (Waits edges) target a) ∧
    ∀ a ∈ s.2, ∀ b, Waits edges a b → b ∈ s.2 ++ s.1
  refine (searchLoop edges source).run_induct (I := I)
    (Q := fun _ r => r = true ↔ ¬ ReflTransGen (Waits edges) target source) ?_ ?_ _
    ⟨by simp, by simp, by simp [ReflTransGen.refl], by simp⟩
  · intro s s' hI hturn
    refine ⟨?_, fun _ h => h⟩
    obtain ⟨pending, seen⟩ := s
    obtain ⟨htarget, hsource, hreached, hclosed⟩ := hI
    change searchTurn edges source _ = _ at hturn
    cases pending with
    | nil => cases hturn
    | cons node pending =>
      simp only [searchTurn] at hturn
      split_ifs at hturn with hne hseen <;> cases hturn
      · grind
      · have hnode := hreached node (by simp)
        refine ⟨by grind, by grind, fun a ha => ?_, by grind [mem_targets]⟩
        by_cases hold : a ∈ seen ++ node :: pending
        · exact hreached a hold
        · exact hnode.tail (mem_targets.1 (by grind))
  · intro s r hI hturn
    obtain ⟨pending, _⟩ := s
    obtain ⟨htarget, hsource, hreached, hclosed⟩ := hI
    change searchTurn edges source _ = _ at hturn
    cases pending with
    | nil =>
      cases hturn
      simp only [append_nil, true_iff] at *
      intro hpath
      apply hsource
      clear hsource
      induction hpath with
      | refl => exact htarget
      | tail _ hedge ih => exact hclosed _ ih _ hedge
    | cons node =>
      simp only [searchTurn] at hturn
      split_ifs at hturn with heq
      cases hturn
      simpa [← heq] using hreached node (by simp)

theorem enter_eq_none :
    enter edges source target = none ↔ ReflTransGen (Waits edges) target source := by
  unfold enter
  rw [← not_iff_not, ← search_eq_true]
  simp

/-- A path over the old edges and a new one takes the new one from its source to its target. -/
theorem path_cases {a b : κ} (hfree : ¬ ReflTransGen (Waits edges) target source)
    (h : TransGen (fun a b => Waits edges a b ∨ a = source ∧ b = target) a b) :
    TransGen (Waits edges) a b ∨
      ReflTransGen (Waits edges) a source ∧ ReflTransGen (Waits edges) target b := by
  induction h with
  | single hedge =>
    obtain hold | ⟨rfl, rfl⟩ := hedge
    · exact .inl (.single hold)
    · exact .inr ⟨.refl, .refl⟩
  | tail _ hedge ih =>
    obtain hold | ⟨rfl, rfl⟩ := hedge
    · exact ih.imp (fun h => h.tail hold) fun h => ⟨h.1, h.2.tail hold⟩
    · exact ih.elim (fun h => .inr ⟨h.to_reflTransGen, .refl⟩) fun h => absurd h.2 hfree

/-- Without a way from its target to its source an edge closes no cycle. -/
theorem acyclic_add (hfree : ¬ ReflTransGen (Waits edges) target source)
    (hacyclic : ∀ a, ¬ TransGen (Waits edges) a a) (a : κ) :
    ¬ TransGen (fun a b => Waits edges a b ∨ a = source ∧ b = target) a a := by
  intro hcycle
  obtain hold | ⟨hsource, htarget⟩ := path_cases hfree hcycle
  · exact hacyclic a hold
  · exact hfree (htarget.trans hsource)

/-! ## Runs -/

variable {guards : Multiset (κ × κ)}

theorem Reached.counted (h : Reached edges guards) (edge : κ × κ) (n : Nat) :
    edges[edge]? = some n ↔ n = guards.count edge ∧ 0 < n := by
  induction h generalizing edge n with
  | new => simp
  | @enter edges _ guards source target _ henter ih =>
    obtain ⟨_, heq⟩ := Option.ite_none_right_eq_some.1 henter
    cases heq
    rw [getElem?_insert_of, Multiset.count_cons]
    by_cases hedge : (source, target) = edge
    · subst hedge
      have hcount : edges[(source, target)]?.getD 0 = guards.count (source, target) := by
        cases hold : edges[(source, target)]? with
        | none =>
          have hnone := ih (source, target) (guards.count (source, target))
          simp only [hold, reduceCtorEq, true_and, false_iff] at hnone
          show 0 = _
          omega
        | some => exact ((ih _ _).1 hold).1
      rw [if_pos rfl, if_pos rfl, Option.some.injEq]
      omega
    · rw [if_neg hedge, if_neg (Ne.symm hedge)]
      exact ih edge n
  | @drop _ _ dropped _ hlive ih =>
    have hlast := (ih dropped _).2 ⟨rfl, Multiset.count_pos.2 hlive⟩
    unfold leave
    rw [hlast]
    dsimp only
    by_cases hedge : dropped = edge
    · subst hedge
      split_ifs with hzero
      · simp
        omega
      · simp
        omega
    · rw [Multiset.count_erase_of_ne (Ne.symm hedge)]
      split_ifs
      · rw [getElem?_erase_of, if_neg hedge]
        exact ih edge n
      · rw [getElem?_insert_of, if_neg hedge]
        exact ih edge n

theorem Reached.waits_iff (h : Reached edges guards) {a b : κ} :
    Waits edges a b ↔ (a, b) ∈ guards := by
  unfold Waits
  rw [mem_iff_getElem?, ← Multiset.count_pos]
  simp [h.counted]

theorem Reached.acyclic (h : Reached edges guards) (a : κ) : ¬ TransGen (Waits edges) a a := by
  induction h generalizing a with
  | new =>
    intro hcycle
    obtain ⟨b, hedge, _⟩ := TransGen.head'_iff.1 hcycle
    cases Reached.new.waits_iff.1 hedge
  | @enter edges _ _ source target h henter ih =>
    have hfree : ¬ ReflTransGen (Waits edges) target source := by
      rw [← enter_eq_none, henter]
      exact Option.some_ne_none _
    intro hcycle
    refine acyclic_add hfree ih a (TransGen.mono (fun a b hedge => ?_) a a hcycle)
    rw [(h.enter henter).waits_iff, Multiset.mem_cons, Prod.mk.injEq, ← h.waits_iff] at hedge
    exact hedge.symm
  | drop h hlive ih =>
    intro hcycle
    refine ih a (TransGen.mono (fun a b hedge => ?_) a a hcycle)
    rw [(h.drop hlive).waits_iff] at hedge
    exact h.waits_iff.2 (Multiset.mem_of_mem_erase hedge)

/-- In every run the counts are those of the live guards and no edges close a cycle, and `enter`
ends, with nothing exactly when its edge would close one. -/
theorem enter_refuses_only_cycles (h : Reached edges guards) :
    (∀ edge n, edges[edge]? = some n ↔ n = guards.count edge ∧ 0 < n) ∧
    (∀ a, ¬ TransGen (Waits edges) a a) ∧ ∀ source target,
      Returns (fun fuel => (searchLoop edges source).runFor fuel ([target], []))
        (enter edges source target).isSome ∧
      (enter edges source target = none ↔
        TransGen (fun a b => Waits edges a b ∨ a = source ∧ b = target) source source) := by
  refine ⟨h.counted, h.acyclic, fun source target => ⟨?_, ?_⟩⟩
  · refine ⟨(searchLoop edges source).size ([target], []) + 1, fun fuel hfuel => ?_⟩
    dsimp only
    rw [← (searchLoop edges source).some_run hfuel]
    unfold enter
    split_ifs with hsearch <;> simp [hsearch]
  · rw [enter_eq_none]
    constructor
    · intro hpath
      exact .head' (.inr ⟨rfl, rfl⟩) (ReflTransGen.mono (fun a b => .inl) _ _ hpath)
    · intro hcycle
      by_contra hfree
      exact acyclic_add hfree h.acyclic source hcycle

theorem opposite_wait_refused :
    ∃ edges, enter (∅ : Edges Nat) 1 2 = some edges ∧ enter edges 2 1 = none := by
  have h : Reached _ _ := Reached.new.enter (rfl : enter (∅ : Edges Nat) 1 2 = _)
  refine ⟨_, rfl, ((enter_refuses_only_cycles h).2.2 2 1).2.2 ?_⟩
  exact .tail (.single (.inr ⟨rfl, rfl⟩)) (.inl (h.waits_iff.2 (Multiset.mem_cons_self _ _)))

/-- In every run the graph is that of its live guards, however they came about, and from every
consumer the waits lead to one that waits for nobody: no set of consumers blocks itself. -/
theorem waits_lead_to_runnable (h : Reached edges guards) :
    (∀ edges', Reached edges' guards → edges' = edges) ∧
      ∀ a, ∃ b, ReflTransGen (Waits edges) a b ∧ ∀ c, ¬ Waits edges b c := by
  constructor
  · intro edges' h'
    ext edge n
    rw [h'.counted, h.counted]
  · refine exists_end (guards.finite_toSet.image Prod.snd) (fun a b hedge => ?_) h.acyclic
    exact ⟨(a, b), h.waits_iff.1 hedge, rfl⟩

/-- The same three guards by two histories, one of them with a guard that was dropped. -/
theorem waits_lead_to_runnable_thrice :
    ∃ edges edges' : Edges Nat, Reached edges {(1, 2), (1, 2), (2, 3)} ∧
      Reached edges' {(1, 2), (1, 2), (2, 3)} ∧ edges' = edges ∧
      ∀ a, ∃ b, ReflTransGen (Waits edges) a b ∧ ∀ c, ¬ Waits edges b c := by
  have hfirst : Reached _ _ := Reached.new.enter (rfl : enter (∅ : Edges Nat) 2 3 = _)
  have hsecond : Reached _ _ := hfirst.enter (rfl : enter _ 1 2 = _)
  have hplain : Reached _ {(1, 2), (1, 2), (2, 3)} := hsecond.enter (rfl : enter _ 1 2 = _)
  have hother : Reached _ _ := hsecond.enter (rfl : enter _ 3 4 = _)
  have hdropped := (hother.drop (Multiset.mem_cons_self _ _)).enter (rfl : enter _ 1 2 = _)
  rw [Multiset.erase_cons_head] at hdropped
  obtain ⟨hsame, hends⟩ := waits_lead_to_runnable hplain
  exact ⟨_, _, hplain, hdropped, hsame _ hdropped, hends⟩

end Astrid.WaitGraph
