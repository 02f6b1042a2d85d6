import Astrid.Lib.Maps

/-!
# Depth-first closure walks

A graph is a partial successor function `succ : α → Option (List α)`: `none` is
a missing node. The walk below is the explicit-stack depth-first search that
storage code uses to validate an object closure: a stack of `(node, expanded)`
entries, a mark per node (`visiting` while its entry is on the stack, `done`
afterwards), an error for a missing node and one for a node met again while it
is still `visiting`. Nodes for which `known` holds are taken as validated
already and are never opened.

`Grounded succ a` is what a successful walk establishes: the nodes below `a`
are all present and there is no infinite descent, so the closure of `a` is
complete and acyclic (`Grounded.complete`, `Grounded.acyclic`). `walk_sound`
and `walk_complete` say that, on a finite graph, the walk succeeds exactly on
grounded nodes and that what it visits is exactly what is reachable.
-/

namespace Astrid

open Std List

/-! ## Grounded nodes -/

section Grounded

variable {α : Type} {succ succ' : α → Option (List α)}

/-- `b` is a successor of the present node `a`. -/
def Edge (succ : α → Option (List α)) (a b : α) : Prop :=
  ∃ s, succ a = some s ∧ b ∈ s

/-- `b` is reachable from `a`. -/
abbrev Reaches (succ : α → Option (List α)) : α → α → Prop :=
  Relation.ReflTransGen (Edge succ)

/-- Every node below `a` is present and every descent from `a` ends. -/
inductive Grounded (succ : α → Option (List α)) : α → Prop
  | intro {a : α} {s : List α} (hs : succ a = some s)
      (h : ∀ b ∈ s, Grounded succ b) : Grounded succ a

variable {a b : α}

section

variable (h : Grounded succ a)

include h

theorem Grounded.edge (e : Edge succ a b) : Grounded succ b := by
  obtain ⟨hs, hc⟩ := h
  obtain ⟨_, hs', hb⟩ := e
  rw [hs] at hs'
  cases hs'
  exact hc b hb

theorem Grounded.reaches (r : Reaches succ a b) : Grounded succ b := by
  induction r with
  | refl => exact h
  | tail _ e ih => exact ih.edge e

theorem Grounded.present : ∃ s, succ a = some s := by
  obtain ⟨hs, _⟩ := h
  exact ⟨_, hs⟩

/-- The closure of a grounded node is complete. -/
theorem Grounded.complete (r : Reaches succ a b) : ∃ s, succ b = some s :=
  (h.reaches r).present

/-- No node of the closure of a grounded node lies on a cycle. -/
theorem Grounded.not_cycle : ¬ Relation.TransGen (Edge succ) a a := by
  induction h with
  | @intro a s hs _ ih =>
    intro hcyc
    -- the first edge of the cycle leads to a child that lies on the same cycle
    obtain ⟨b, hab, hba⟩ := Relation.TransGen.head'_iff.1 hcyc
    obtain ⟨_, hs', hb⟩ := hab
    rw [hs] at hs'
    cases hs'
    exact ih b hb (Relation.TransGen.tail' hba ⟨s, hs, hb⟩)

theorem Grounded.acyclic (r : Reaches succ a b) : ¬ Relation.TransGen (Edge succ) b b :=
  (h.reaches r).not_cycle

/-- Grounding only looks at the nodes below: it survives in every graph that
agrees there. -/
theorem Grounded.congr (hagree : ∀ b, Reaches succ a b → succ' b = succ b) : Grounded succ' a := by
  induction h with
  | @intro a s hs _ ih =>
    refine .intro ((hagree a .refl).trans hs) fun b hb => ih b hb fun c hr => ?_
    exact hagree c (.head ⟨s, hs, hb⟩ hr)

/-- Adding nodes to a graph keeps what is grounded. -/
theorem Grounded.mono (hext : ∀ b s, succ b = some s → succ' b = some s) : Grounded succ' a := by
  refine h.congr fun b hr => ?_
  obtain ⟨s, hs⟩ := h.complete hr
  rw [hs, hext b s hs]

end

/-- The graph in which the `known` nodes are leaves. -/
def cut (known : α → Bool) (succ : α → Option (List α)) (a : α) : Option (List α) :=
  if known a then some [] else succ a

variable {known : α → Bool}

theorem cut_known (h : known a = true) :
    cut known succ a = some [] := by
  simp [cut, h]

theorem cut_unknown (h : known a = false) :
    cut known succ a = succ a := by
  simp [cut, h]

/-- Grounding up to known nodes is grounding, once the known nodes are grounded. -/
theorem Grounded.of_cut (h : Grounded (cut known succ) a)
    (hknown : ∀ b, known b = true → Grounded succ b) : Grounded succ a := by
  induction h with
  | @intro a _ hs _ ih =>
    by_cases hk : known a = true
    · exact hknown a hk
    · rw [cut_unknown (by simpa using hk)] at hs
      exact .intro hs ih

theorem Grounded.to_cut (h : Grounded succ a) :
    Grounded (cut known succ) a := by
  induction h with
  | @intro a _ hs _ ih =>
    by_cases hk : known a = true
    · exact .intro (cut_known hk) (by simp)
    · exact .intro ((cut_unknown (by simpa using hk)).trans hs) ih

/-- A path to an unknown node meets no known one, if these are closed. -/
theorem Reaches.to_cut (h : Reaches succ a b)
    (hclosed : ∀ a b, known a = true → Edge succ a b → known b = true) (hb : known b = false) :
    Reaches (cut known succ) a b := by
  induction h with
  | refl => exact .refl
  | @tail c b _ hedge ih =>
    have hc : known c = false := by
      cases hc : known c with
      | false => rfl
      | true => exact absurd ((hclosed c b hc hedge).symm.trans hb) Bool.true_eq_false.mp
    obtain ⟨s, hs, hmem⟩ := hedge
    exact (ih hc).tail ⟨s, (cut_unknown hc).trans hs, hmem⟩

end Grounded

/-! ## The walk -/

/-- The marks `1` and `2` of the loop. -/
inductive Mark
  | visiting
  | done
  deriving DecidableEq, Repr

/-- Why a walk stops early. -/
inductive WalkError (α : Type)
  | missing (a : α)
  | cycle (a : α)
  deriving DecidableEq, Repr

/-- What an error says: a node is missing within reach, or is on a cycle there. -/
def WalkError.Real {α : Type} (succ : α → Option (List α)) (root : α) : WalkError α → Prop
  | .missing a => Reaches succ root a ∧ succ a = none
  | .cycle a => Reaches succ root a ∧ Relation.TransGen (Edge succ) a a

theorem Grounded.not_real {α : Type} {succ : α → Option (List α)} {a : α} {e : WalkError α}
    (hg : Grounded succ a) : ¬ e.Real succ a := by
  cases e with
  | missing =>
    intro h
    obtain ⟨_, hs⟩ := hg.complete h.1
    rw [h.2] at hs
    cases hs
  | cycle => exact fun h => hg.acyclic h.1 h.2

/-- The loop state: marks, the nodes opened or taken as known (`entered`), the
nodes closed (`finished`), and the stack, top first. -/
structure Walk (α : Type) [Key α] where
  marks : FMap α Mark
  entered : FSet α
  finished : FSet α
  stack : List (α × Bool)

section Walk

variable {α : Type} [Key α] {known : α → Bool} {succ : α → Option (List α)}

def Walk.start (root : α) : Walk α := ⟨∅, ∅, ∅, [(root, false)]⟩

/-- One turn of the loop, for the entry `(id, expanded)` popped off the stack. -/
def Walk.turn (known : α → Bool) (succ : α → Option (List α)) (w : Walk α)
    (id : α) (expanded : Bool) (rest : List (α × Bool)) :
    Except (WalkError α) (Walk α) :=
  if known id then
    .ok { w with entered := w.entered.insert id, stack := rest }
  else if expanded then
    .ok { w with
      marks := w.marks.insert id .done, finished := w.finished.insert id, stack := rest }
  else
    match w.marks[id]? with
    | some .done => .ok { w with stack := rest }
    | some .visiting => .error (.cycle id)
    | none =>
      match succ id with
      | none => .error (.missing id)
      | some children =>
        .ok { w with
          marks := w.marks.insert id .visiting
          entered := w.entered.insert id
          stack := children.map (·, false) ++ (id, true) :: rest }

/-- The loop, with a bound on the number of turns. -/
def Walk.run (known : α → Bool) (succ : α → Option (List α)) :
    Nat → Walk α → Option (Except (WalkError α) (Walk α))
  | 0, w => if w.stack = [] then some (.ok w) else none
  | fuel + 1, w =>
    match w.stack with
    | [] => some (.ok w)
    | (id, expanded) :: rest =>
      match w.turn known succ id expanded rest with
      | .error e => some (.error e)
      | .ok w' => Walk.run known succ fuel w'

variable {w w' : Walk α} {id : α} {expanded : Bool} {rest : List (α × Bool)}

/-- Everything a turn that goes on can do. -/
theorem Walk.turn_ok (h : w.turn known succ id expanded rest = .ok w') :
    (known id = true ∧ w' = { w with entered := w.entered.insert id, stack := rest }) ∨
    (known id = false ∧ expanded = true ∧ w' = { w with
      marks := w.marks.insert id .done, finished := w.finished.insert id, stack := rest }) ∨
    (known id = false ∧ expanded = false ∧ w.marks[id]? = some .done ∧
      w' = { w with stack := rest }) ∨
    (∃ children, known id = false ∧ expanded = false ∧ w.marks[id]? = none ∧
      succ id = some children ∧ w' = { w with
        marks := w.marks.insert id .visiting
        entered := w.entered.insert id
        stack := children.map (·, false) ++ (id, true) :: rest }) := by
  unfold Walk.turn at h
  split at h
  next hk => exact .inl ⟨hk, by cases h; rfl⟩
  next hk =>
    have hk' : known id = false := by simpa using hk
    split at h
    next he => exact .inr (.inl ⟨hk', he, by cases h; rfl⟩)
    next he =>
      have he' : expanded = false := by simpa using he
      split at h
      next hm => exact .inr (.inr (.inl ⟨hk', he', hm, by cases h; rfl⟩))
      next hm => cases h
      next hm =>
        split at h
        · cases h
        rename_i children hs
        exact .inr (.inr (.inr ⟨children, hk', he', hm, hs, by cases h; rfl⟩))

variable {e : WalkError α}

/-- Everything a turn that stops can report. -/
theorem Walk.turn_error (h : w.turn known succ id expanded rest = .error e) :
    known id = false ∧ expanded = false ∧
      ((w.marks[id]? = some .visiting ∧ e = .cycle id) ∨ (succ id = none ∧ e = .missing id)) := by
  unfold Walk.turn at h
  split at h
  · cases h
  rename_i hk
  split at h
  · cases h
  rename_i he
  refine ⟨by simpa using hk, by simpa using he, ?_⟩
  split at h
  next => cases h
  next hm => exact .inl ⟨hm, by cases h; rfl⟩
  next hm =>
    split at h
    next hs => exact .inr ⟨hs, by cases h; rfl⟩
    next => cases h

/-! ## The walk's invariant -/

/-- A node the walk needs no more work for. -/
def Walk.Settled (known : α → Bool) (w : Walk α) (a : α) : Prop :=
  (known a = true ∧ a ∈ w.entered) ∨ w.marks[a]? = some .done

/-- Down the stack, each node being visited has all its children settled or
higher up in the stack. -/
def OpenOk (succ : α → Option (List α)) (settled : α → Prop) :
    List α → List (α × Bool) → Prop
  | _, [] => True
  | above, (a, false) :: rest => OpenOk succ settled (a :: above) rest
  | above, (a, true) :: rest =>
    (∃ s, succ a = some s ∧ ∀ c ∈ s, settled c ∨ c ∈ above) ∧ OpenOk succ settled (a :: above) rest

variable {P : α → Prop} {stack : List (α × Bool)}

omit [Key α] in
theorem OpenOk.mono {Q : α → Prop} (hPQ : ∀ a, P a → Q a) :
    ∀ {above above' : List α}, (∀ c ∈ above, Q c ∨ c ∈ above') →
      OpenOk succ P above stack → OpenOk succ Q above' stack := by
  induction stack with
  | nil => intro above above' _ _; trivial
  | cons top _ ih =>
    intro above above' hab h
    obtain ⟨a, expanded⟩ := top
    have hab' : ∀ c ∈ a :: above, Q c ∨ c ∈ a :: above' :=
      forall_mem_cons.2 ⟨.inr mem_cons_self, fun c hc => (hab c hc).imp_right (mem_cons_of_mem _)⟩
    cases expanded with
    | false => exact ih hab' h
    | true =>
      obtain ⟨⟨s, hs, hc⟩, hrest⟩ := h
      refine ⟨⟨s, hs, fun c hcs => ?_⟩, ih hab' hrest⟩
      rcases hc c hcs with hP | ha
      · exact .inl (hPQ c hP)
      · exact hab c ha

omit [Key α] in
/-- Pushing unexpanded entries only adds nodes above. -/
theorem OpenOk.push (s : List α) :
    ∀ {above : List α}, OpenOk succ P (s.reverse ++ above) stack →
      OpenOk succ P above (s.map (·, false) ++ stack) := by
  induction s with
  | nil => intro above h; exact h
  | cons _ _ ih =>
    intro above h
    apply ih
    simpa using h

/-- What every turn keeps. `path` says that a node being visited reaches every
entry above its own, which is why meeting it again is a cycle. -/
structure WalkInv (known : α → Bool) (succ : α → Option (List α)) (root : α)
    (w : Walk α) : Prop where
  marked : ∀ a m, w.marks[a]? = some m → known a = false ∧ a ∈ w.entered
  done : ∀ a, w.marks[a]? = some .done → Grounded (cut known succ) a ∧
    ∃ s, succ a = some s ∧ ∀ c ∈ s, w.Settled known c
  visiting : ∀ a, w.marks[a]? = some .visiting → (a, true) ∈ w.stack
  expanded : ∀ a, (a, true) ∈ w.stack → a ∈ w.entered
  finished : ∀ a, a ∈ w.finished ↔ w.marks[a]? = some .done
  entered : ∀ a, a ∈ w.entered → Reaches (cut known succ) root a
  reach : ∀ e ∈ w.stack, Reaches (cut known succ) root e.1
  openOk : OpenOk succ (w.Settled known) [] w.stack
  path : w.stack.Pairwise fun upper lower =>
    lower.2 = true → Relation.TransGen (Edge (cut known succ)) lower.1 upper.1
  root : w.Settled known root ∨ root ∈ w.stack.map Prod.fst

theorem walkInv_start (root : α) : WalkInv known succ root (Walk.start root) where
  marked a m h := by simp [Walk.start] at h
  done a h := by simp [Walk.start] at h
  visiting a h := by simp [Walk.start] at h
  expanded a h := by simp [Walk.start] at h
  finished a := by simp [Walk.start]
  entered a h := by simp [Walk.start] at h
  reach e he := by
    simp only [Walk.start, mem_singleton] at he
    rw [he]
  openOk := trivial
  path := by simp [Walk.start]
  root := .inr (by simp [Walk.start])

variable {root : α}

/-- A turn that only drops the settled top entry keeps the parts of the
invariant that speak about the stack. -/
private theorem WalkInv.pop {top : α × Bool} (hw : WalkInv known succ root w)
    (hst : w.stack = top :: rest) (hst' : w'.stack = rest)
    (hset : ∀ a, w.Settled known a → w'.Settled known a) (htop : w'.Settled known top.1) :
    (∀ e ∈ w'.stack, Reaches (cut known succ) root e.1) ∧
    OpenOk succ (w'.Settled known) [] w'.stack ∧
    (w'.stack.Pairwise fun upper lower =>
      lower.2 = true → Relation.TransGen (Edge (cut known succ)) lower.1 upper.1) ∧
    (w'.Settled known root ∨ root ∈ w'.stack.map Prod.fst) := by
  have hreach := hw.reach
  have hopen := hw.openOk
  have hpath := hw.path
  have hroot := hw.root
  rw [hst] at hreach hopen hpath hroot
  rw [hst']
  refine ⟨(forall_mem_cons.1 hreach).2, ?_, hpath.of_cons, ?_⟩
  · -- the popped node was `above` everything else and is settled now
    have habove : OpenOk succ (w.Settled known) [top.1] rest := by
      rcases top with ⟨_, _ | _⟩
      · exact hopen
      · exact hopen.2
    refine habove.mono hset fun c hc => .inl ?_
    rw [mem_singleton.1 hc]
    exact htop
  · rw [map_cons, mem_cons] at hroot
    rcases hroot with h | rfl | h
    · exact .inl (hset root h)
    · exact .inl htop
    · exact .inr h

variable {a : α}

theorem Walk.Settled.mono (h : w.Settled known a) (hentered : ∀ b, b ∈ w.entered → b ∈ w'.entered)
    (hmarks : ∀ b : α, w.marks[b]? = some .done → w'.marks[b]? = some .done) : w'.Settled known a :=
  Or.imp (fun hk => ⟨hk.1, hentered a hk.2⟩) (hmarks a) h

section

variable (hw : WalkInv known succ root w)

include hw

theorem WalkInv.grounded (h : w.Settled known a) : Grounded (cut known succ) a := by
  rcases h with ⟨hk, _⟩ | hd
  · exact .intro (cut_known hk) (by simp)
  · exact (hw.done a hd).1

/-- Taking a known node. -/
private theorem walkInv_known (hst : w.stack = (id, expanded) :: rest) (hk : known id = true) :
    WalkInv known succ root { w with entered := w.entered.insert id, stack := rest } := by
  have hset : ∀ a, w.Settled known a → Walk.Settled known
      { w with entered := w.entered.insert id, stack := rest } a := fun a ha =>
    ha.mono (fun b hb => mem_insert_set.2 (.inr hb)) fun b hb => hb
  obtain ⟨h1, h2, h3, h4⟩ := hw.pop hst rfl hset (.inl ⟨hk, mem_insert_set.2 (.inl rfl)⟩)
  refine ⟨fun a m hm => ?_, fun a ha => ?_, fun a ha => ?_, fun a ha => ?_, hw.finished,
    fun a ha => ?_, h1, h2, h3, h4⟩
  · exact ⟨(hw.marked a m hm).1, mem_insert_set.2 (.inr (hw.marked a m hm).2)⟩
  · obtain ⟨hg, s, hs, hc⟩ := hw.done a ha
    exact ⟨hg, s, hs, fun c hcs => hset c (hc c hcs)⟩
  · have hmem := hw.visiting a ha
    rw [hst, mem_cons] at hmem
    refine hmem.resolve_left fun heq => ?_
    -- a node being visited is not a known one
    have hunknown := (hw.marked a _ ha).1
    rw [(Prod.mk.inj heq).1, hk] at hunknown
    exact absurd hunknown (by decide)
  · exact mem_insert_set.2 (.inr (hw.expanded a (by rw [hst]; exact mem_cons_of_mem _ ha)))
  · rcases mem_insert_set.1 ha with rfl | ha
    · exact hw.reach _ (by rw [hst]; exact mem_cons_self)
    · exact hw.entered a ha

/-- Closing an expanded node: its children are all settled. -/
private theorem walkInv_close (hst : w.stack = (id, true) :: rest) (hk : known id = false) :
    WalkInv known succ root { w with
      marks := w.marks.insert id .done, finished := w.finished.insert id, stack := rest } := by
  have hopen := hw.openOk
  rw [hst] at hopen
  obtain ⟨⟨s, hs, hchildren⟩, _⟩ := hopen
  have hmarks : ∀ (a : α), (w.marks.insert id Mark.done)[a]? =
      if id = a then some Mark.done else w.marks[a]? := by
    exact getElem?_insert_of _ _ _
  have hset : ∀ a, w.Settled known a → Walk.Settled known { w with
      marks := w.marks.insert id .done, finished := w.finished.insert id, stack := rest } a := by
    refine fun a ha => ha.mono (fun b hb => hb) fun b hb => ?_
    rw [hmarks]
    split
    · rfl
    · exact hb
  have hid : Walk.Settled known { w with
      marks := w.marks.insert id .done, finished := w.finished.insert id, stack := rest } id :=
    .inr (by rw [hmarks, if_pos rfl])
  have hsettled : ∀ c ∈ s, w.Settled known c := fun c hc =>
    (hchildren c hc).resolve_right (by simp)
  obtain ⟨h1, h2, h3, h4⟩ := hw.pop hst rfl hset hid
  refine ⟨fun a m hm => ?_, fun a ha => ?_, fun a ha => ?_, fun a ha => ?_, fun a => ?_,
    hw.entered, h1, h2, h3, h4⟩
  · rw [hmarks] at hm
    split at hm
    next heq =>
      subst heq
      exact ⟨hk, hw.expanded id (by rw [hst]; exact mem_cons_self)⟩
    next => exact hw.marked a m hm
  · rw [hmarks] at ha
    split at ha
    next heq =>
      subst heq
      refine ⟨.intro ((cut_unknown hk).trans hs) fun c hc => hw.grounded (hsettled c hc), s, hs,
        fun c hc => hset c (hsettled c hc)⟩
    next =>
      obtain ⟨hg, s, hs, hc⟩ := hw.done a ha
      exact ⟨hg, s, hs, fun c hcs => hset c (hc c hcs)⟩
  · rw [hmarks] at ha
    split at ha
    · cases ha
    rename_i hne
    have hmem := hw.visiting a ha
    rw [hst, mem_cons] at hmem
    exact hmem.resolve_left fun heq => hne (Prod.mk.inj heq).1.symm
  · exact hw.expanded a (by rw [hst]; exact mem_cons_of_mem _ ha)
  · rw [hmarks, mem_insert_set, hw.finished]
    split
    next heq => simp [heq]
    next hne => simp [hne]

/-- Dropping an entry for a node that is done. -/
private theorem walkInv_drop (hst : w.stack = (id, false) :: rest)
    (hm : w.marks[id]? = some .done) : WalkInv known succ root { w with stack := rest } := by
  have hset : ∀ a, w.Settled known a → Walk.Settled known { w with stack := rest } a :=
    fun a ha => ha
  obtain ⟨h1, h2, h3, h4⟩ := hw.pop hst rfl hset (.inr hm)
  refine ⟨hw.marked, hw.done, fun a ha => ?_, fun a ha => ?_, hw.finished, hw.entered,
    h1, h2, h3, h4⟩
  · have hmem := hw.visiting a ha
    rw [hst, mem_cons] at hmem
    exact hmem.resolve_left (by simp)
  · exact hw.expanded a (by rw [hst]; exact mem_cons_of_mem _ ha)

/-- Opening a node: its children go on top of its expanded entry. -/
private theorem walkInv_open {s : List α} (hst : w.stack = (id, false) :: rest)
    (hk : known id = false) (hm : w.marks[id]? = none) (hs : succ id = some s) :
    WalkInv known succ root { w with
      marks := w.marks.insert id .visiting
      entered := w.entered.insert id
      stack := s.map (·, false) ++ (id, true) :: rest } := by
  have hreach := hw.reach
  have hopen := hw.openOk
  have hpath := hw.path
  have hroot := hw.root
  rw [hst] at hreach hopen hpath hroot
  have hid : Reaches (cut known succ) root id := hreach _ mem_cons_self
  have hedge : ∀ c ∈ s, Edge (cut known succ) id c := fun c hc =>
    ⟨s, (cut_unknown hk).trans hs, hc⟩
  have hmarks : ∀ (a : α), (w.marks.insert id Mark.visiting)[a]? =
      if id = a then some Mark.visiting else w.marks[a]? := by
    exact getElem?_insert_of _ _ _
  have hset : ∀ a, w.Settled known a → Walk.Settled known { w with
      marks := w.marks.insert id .visiting, entered := w.entered.insert id,
      stack := s.map (·, false) ++ (id, true) :: rest } a := by
    refine fun a ha => ha.mono (fun b hb => mem_insert_set.2 (.inr hb)) fun b hb => ?_
    rw [hmarks, if_neg, hb]
    rintro rfl
    rw [hm] at hb
    cases hb
  refine ⟨fun a m ha => ?_, fun a ha => ?_, fun a ha => ?_, fun a ha => ?_, fun a => ?_,
    fun a ha => ?_, fun e he => ?_, ?_, ?_, ?_⟩
  · rw [hmarks] at ha
    split at ha
    next heq => exact heq ▸ ⟨hk, mem_insert_set.2 (.inl rfl)⟩
    next => exact ⟨(hw.marked a m ha).1, mem_insert_set.2 (.inr (hw.marked a m ha).2)⟩
  · rw [hmarks] at ha
    split at ha
    · cases ha
    obtain ⟨hg, s', hs', hc⟩ := hw.done a ha
    exact ⟨hg, s', hs', fun c hcs => hset c (hc c hcs)⟩
  · rw [hmarks] at ha
    split at ha
    next heq => simp [heq]
    next =>
      have hmem := hw.visiting a ha
      rw [hst, mem_cons] at hmem
      simp [hmem.resolve_left (by simp)]
  · simp only [mem_append, mem_map, mem_cons, Prod.mk.injEq,
      Bool.false_eq_true, and_false, exists_false, and_true, false_or] at ha
    refine mem_insert_set.2 (ha.imp Eq.symm fun h => ?_)
    exact hw.expanded a (by rw [hst]; exact mem_cons_of_mem _ h)
  · rw [hmarks, hw.finished]
    split
    next heq => simp [← heq, hm]
    next => rfl
  · rcases mem_insert_set.1 ha with rfl | ha
    · exact hid
    · exact hw.entered a ha
  · simp only [mem_append, mem_map, mem_cons] at he
    rcases he with ⟨c, hc, rfl⟩ | rfl | he
    · exact hid.tail (hedge c hc)
    · exact hid
    · exact hreach e (mem_cons_of_mem _ he)
  · -- the children are above `id`, and `id` is above what was below it
    refine OpenOk.push s ⟨⟨s, hs, fun c hc => .inr (by simp [hc])⟩, ?_⟩
    have habove : ∀ c ∈ [id], Walk.Settled known { w with
        marks := w.marks.insert id .visiting, entered := w.entered.insert id,
        stack := s.map (·, false) ++ (id, true) :: rest } c ∨ c ∈ id :: (s.reverse ++ []) := by
      intro c hc
      rw [mem_singleton.1 hc]
      exact .inr mem_cons_self
    exact OpenOk.mono hset habove hopen
  · obtain ⟨hbelow, hrest⟩ := pairwise_cons.1 hpath
    refine pairwise_append.2 ⟨?_, pairwise_cons.2 ⟨hbelow, hrest⟩, ?_⟩
    · exact pairwise_map.2 (pairwise_of_forall nofun)
    · intro x hx y hy hopened
      obtain ⟨c, hc, rfl⟩ := mem_map.1 hx
      rcases mem_cons.1 hy with rfl | hy
      · exact .single (hedge c hc)
      · exact (hbelow y hy hopened).tail (hedge c hc)
  · rw [map_cons, mem_cons] at hroot
    rcases hroot with h | rfl | h
    · exact .inl (hset root h)
    · exact .inr (by simp)
    · exact .inr (by simp [mem_map.1 h])

theorem walkInv_turn (hst : w.stack = (id, expanded) :: rest)
    (h : w.turn known succ id expanded rest = .ok w') : WalkInv known succ root w' := by
  obtain ⟨hk, rfl⟩ | ⟨hk, rfl, rfl⟩ | ⟨hk, rfl, hm, rfl⟩ | ⟨s, hk, rfl, hm, hs, rfl⟩ :=
    Walk.turn_ok h
  · exact walkInv_known hw hst hk
  · exact walkInv_close hw hst hk
  · exact walkInv_drop hw hst hm
  · exact walkInv_open hw hst hk hm hs

theorem walkInv_error (hst : w.stack = (id, expanded) :: rest)
    (h : w.turn known succ id expanded rest = .error e) : e.Real (cut known succ) root := by
  have hreach : Reaches (cut known succ) root id := hw.reach (id, expanded) (by simp [hst])
  obtain ⟨hk, rfl, ⟨hm, rfl⟩ | ⟨hs, rfl⟩⟩ := Walk.turn_error h
  · -- `id` is being visited, so its expanded entry is below and it reaches itself
    have hmem := hw.visiting id hm
    have hpath := hw.path
    rw [hst] at hmem hpath
    have hbelow := (mem_cons.1 hmem).resolve_left (by simp)
    exact ⟨hreach, (pairwise_cons.1 hpath).1 _ hbelow rfl⟩
  · exact ⟨hreach, (cut_unknown hk).trans hs⟩

end

theorem Walk.run_inv {fuel : Nat} {w w' : Walk α} (hw : WalkInv known succ root w)
    (h : w.run known succ fuel = some (.ok w')) : WalkInv known succ root w' ∧ w'.stack = [] := by
  induction fuel generalizing w w' with
  | zero =>
    unfold Walk.run at h
    split at h
    next hst => cases h; exact ⟨hw, hst⟩
    next => cases h
  | succ _ ih =>
    unfold Walk.run at h
    split at h
    next hst => cases h; exact ⟨hw, hst⟩
    next id expanded rest hst =>
      split at h
      next => cases h
      next w₁ hturn => exact ih (walkInv_turn hw hst hturn) h

theorem Walk.run_error {fuel : Nat} {w : Walk α} {e : WalkError α} (hw : WalkInv known succ root w)
    (h : w.run known succ fuel = some (.error e)) : e.Real (cut known succ) root := by
  induction fuel generalizing w e with
  | zero =>
    unfold Walk.run at h
    split at h <;> cases h
  | succ fuel ih =>
    unfold Walk.run at h
    split at h
    · cases h
    rename_i id expanded rest hst
    split at h
    next e' hturn =>
      cases h
      exact walkInv_error hw hst hturn
    next w₁ hturn => exact ih (walkInv_turn hw hst hturn) h

end Walk

/-! ## Finite graphs -/

/-- A graph whose present nodes are listed, which bounds every walk. -/
structure FiniteGraph (α : Type) where
  nodes : List α
  succ : α → Option (List α)
  mem_nodes : ∀ {a s}, succ a = some s → a ∈ nodes

/-- Lowering one summand by `k` and raising none lowers the sum by `k`. -/
private theorem sum_add_le_of_mem {α : Type} {f g : α → Nat} {l : List α} {x : α} {k : Nat}
    (hfg : ∀ a ∈ l, f a ≤ g a) (hx : x ∈ l) (hk : f x + k ≤ g x) :
    (l.map f).sum + k ≤ (l.map g).sum := by
  obtain ⟨l₁, l₂, rfl⟩ := append_of_mem hx
  have h₁ : (l₁.map f).sum ≤ (l₁.map g).sum :=
    sum_le_sum (forall_mem_append.1 hfg).1
  have h₂ : (l₂.map f).sum ≤ (l₂.map g).sum :=
    sum_le_sum fun a ha => hfg a (mem_append_right _ (mem_cons_of_mem _ ha))
  simp only [map_append, map_cons, sum_append, sum_cons]
  omega

section FiniteGraph

variable {α : Type} [Key α] {known : α → Bool}

/-- What opening `a` adds to the stack, and its own closing entry. -/
def FiniteGraph.cost (g : FiniteGraph α) (a : α) : Nat := 1 + ((g.succ a).getD []).length

/-- What a node may still cost: nothing once it is marked. -/
def FiniteGraph.due (g : FiniteGraph α) (w : Walk α) (a : α) : Nat :=
  if w.marks[a]?.isNone then g.cost a else 0

/-- A bound on the turns still to come: entries on the stack and nodes not marked yet. -/
def FiniteGraph.weight (g : FiniteGraph α) (w : Walk α) : Nat :=
  w.stack.length + (g.nodes.map (g.due w)).sum

variable {w w' : Walk α} {id : α}

section

variable (g : FiniteGraph α)

private theorem due_insert_le {m : Mark} (hm : w'.marks = w.marks.insert id m) :
    ∀ a ∈ g.nodes, g.due w' a ≤ g.due w a := by
  intro a _
  unfold FiniteGraph.due
  rw [hm, ExtTreeMap.getElem?_insert]
  by_cases h : compare id a = .eq
  · simp [h]
  · rw [if_neg h]

/-- Every turn that goes on uses up some weight. -/
theorem FiniteGraph.weight_turn {expanded : Bool} {rest : List (α × Bool)}
    (hst : w.stack = (id, expanded) :: rest) (h : w.turn known g.succ id expanded rest = .ok w') :
    g.weight w' < g.weight w := by
  unfold FiniteGraph.weight
  rw [hst, length_cons]
  obtain ⟨_, rfl⟩ | ⟨_, _, rfl⟩ | ⟨_, _, _, rfl⟩ | ⟨s, _, _, hm, hs, rfl⟩ := Walk.turn_ok h
  · exact Nat.add_lt_add_right (Nat.lt_succ_self _) _
  · have hle := due_insert_le g (rfl : { w with
      marks := w.marks.insert id .done
      finished := w.finished.insert id
      stack := rest : Walk α }.marks = w.marks.insert id .done)
    have hdue := sum_le_sum hle
    show rest.length + _ < _
    omega
  · exact Nat.add_lt_add_right (Nat.lt_succ_self _) _
  · -- opening pays `cost id` for the entries it pushes
    have hle := due_insert_le g (rfl : { w with
      marks := w.marks.insert id .visiting
      entered := w.entered.insert id
      stack := s.map (·, false) ++ (id, true) :: rest : Walk α }.marks =
        w.marks.insert id .visiting)
    have hcost : g.cost id = 1 + s.length := by simp [FiniteGraph.cost, hs]
    have hdue := sum_add_le_of_mem hle (g.mem_nodes hs)
      (show _ + (1 + s.length) ≤ _ by simp [FiniteGraph.due, hm, hcost])
    show (s.map (·, false) ++ (id, true) :: rest).length + _ < _
    rw [length_append, length_map, length_cons]
    omega

theorem FiniteGraph.run_isSome {fuel : Nat} {w : Walk α} (hw : g.weight w ≤ fuel) : (w.run known
    g.succ fuel).isSome := by
  induction fuel generalizing w with
  | zero =>
    have hst : w.stack = [] := by
      unfold FiniteGraph.weight at hw
      exact length_eq_zero_iff.1 (by omega)
    simp [Walk.run, hst]
  | succ _ ih =>
    unfold Walk.run
    split
    next => rfl
    next id expanded rest hst =>
      split
      next => rfl
      next w' hturn =>
        have := g.weight_turn hst hturn
        exact ih (by omega)

/-- The whole walk from `root`. -/
def FiniteGraph.walk (known : α → Bool) (root : α) : Except (WalkError α) (Walk α) :=
  ((Walk.start root).run known g.succ (g.weight (Walk.start root))).get (g.run_isSome le_rfl)

theorem FiniteGraph.run_eq_walk (known : α → Bool) (root : α) :
    (Walk.start root).run known g.succ (g.weight (Walk.start root)) = some (g.walk known root) := by
  exact (Option.some_get _).symm

end

variable {g : FiniteGraph α} {root : α}

/-- A successful walk: the root is grounded up to the known nodes, the entered
nodes are the reachable ones and the finished nodes those that are not known. -/
theorem FiniteGraph.walk_sound (h : g.walk known root = .ok w) :
    Grounded (cut known g.succ) root ∧
    (∀ a, a ∈ w.entered ↔ Reaches (cut known g.succ) root a) ∧
    (∀ a, a ∈ w.finished ↔ Reaches (cut known g.succ) root a ∧ known a = false) := by
  have hrun := g.run_eq_walk known root
  rw [h] at hrun
  obtain ⟨hw, hst⟩ := Walk.run_inv (walkInv_start root) hrun
  have hroot : w.Settled known root := hw.root.resolve_right (by simp [hst])
  -- settled nodes are closed under successors, so everything reachable is settled
  have hsettled : ∀ a, Reaches (cut known g.succ) root a → w.Settled known a := by
    intro a hr
    induction hr with
    | refl => exact hroot
    | @tail b c _ e ih =>
      obtain ⟨_, hs, hc⟩ := e
      rcases ih with ⟨hk, _⟩ | hd
      · rw [cut_known hk] at hs
        cases hs
        cases hc
      obtain ⟨_, _, hs', hchildren⟩ := hw.done b hd
      rw [cut_unknown (hw.marked b _ hd).1, hs'] at hs
      cases hs
      exact hchildren c hc
  have hentered : ∀ a, w.Settled known a → a ∈ w.entered := fun a ha =>
    ha.elim (fun hk => hk.2) fun hd => (hw.marked a _ hd).2
  refine ⟨hw.grounded hroot, fun a => ⟨hw.entered a, fun hr => hentered a (hsettled a hr)⟩,
    fun a => ?_⟩
  rw [hw.finished]
  constructor
  · exact fun hd => ⟨hw.entered a (hentered a (.inr hd)), (hw.marked a _ hd).1⟩
  · rintro ⟨hr, hk⟩
    exact (hsettled a hr).resolve_left (by simp [hk])

theorem FiniteGraph.walk_error {e : WalkError α} (h : g.walk known root = .error e) :
    e.Real (cut known g.succ) root :=
  Walk.run_error (walkInv_start root) ((g.run_eq_walk known root).trans (congrArg some h))

/-- The walk succeeds on every root that is grounded up to the known nodes. -/
theorem FiniteGraph.walk_complete (hg : Grounded (cut known g.succ) root) :
    ∃ w, g.walk known root = .ok w := by
  cases h : g.walk known root with
  | ok w => exact ⟨w, rfl⟩
  | error => exact absurd (walk_error h) hg.not_real

end FiniteGraph

open Relation in
/-- Without cycles and with finitely many targets, every path can be followed to an end. -/
theorem exists_end {α : Type} {r : α → α → Prop} {nodes : Set α} (hfinite : nodes.Finite)
    (hnodes : ∀ a b, r a b → b ∈ nodes) (hacyclic : ∀ a, ¬ TransGen r a a) (a : α) :
    ∃ b, ReflTransGen r a b ∧ ∀ c, ¬ r b c := by
  have : IsStrictOrder α fun b c => TransGen r c b :=
    { irrefl := hacyclic, trans := fun _ _ _ hbc hcd => hcd.trans hbc }
  have hwf : nodes.WellFoundedOn fun b c => TransGen r c b := hfinite.wellFoundedOn
  by_contra! hgoes
  obtain ⟨first, hfirst⟩ := hgoes a .refl
  obtain ⟨last, ⟨hlast, hmem⟩, hmin⟩ := (Set.wellFoundedOn_iff.1 hwf).has_min
    {b | ReflTransGen r a b ∧ b ∈ nodes} ⟨first, .single hfirst, hnodes _ _ hfirst⟩
  obtain ⟨next, hnext⟩ := hgoes last hlast
  have hmem' := hnodes _ _ hnext
  exact hmin next ⟨hlast.tail hnext, hmem'⟩ ⟨.single hnext, hmem', hmem⟩

end Astrid
