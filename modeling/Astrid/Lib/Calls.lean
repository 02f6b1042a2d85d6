import Mathlib

/-!
# Concurrent calls on a shared state

Calls run concurrently on one shared state. The code of a call is a `Prog`: a sequence of
atomic actions, each of which may have to wait until the state is ready for it, and of choices
that the surroundings make (an operation of the storage fails, a hash map lists its entries in
some order). `System` holds the calls in flight, and a `Run` starts calls, lets any of them
take its next action, returns results, moves the surroundings and restarts the process, in
any order; its history lists what a caller can see.

Proofs are by rely and guarantee. Call `n` relies on what all the others do to the state
(`rely n`), and each of its own actions keeps the `rely` of the others. `Valid n p s Q` says
that the rest `p` of call `n` does so from state `s`, and returns what `Q` allows; there is
one rule for each way to build a program. `Run.returned` then holds of every run: a call that
was started in a state with `J` returns what its `Valid` from `J` says.
-/

namespace Astrid.Calls

open List Option Function

/-! ## Programs -/

/-- The rest of a call. -/
inductive Prog (σ α : Type)
  | ret (a : α)
  | act (ready : σ → Bool) (next : σ → σ) (cont : σ → Prog σ α)
  | choose (cont : Nat → Prog σ α)

namespace Prog

variable {σ α β : Type}

def bind : Prog σ α → (α → Prog σ β) → Prog σ β
  | ret a, k => k a
  | act ready next cont, k => act ready next fun s => (cont s).bind k
  | choose cont, k => choose fun i => (cont i).bind k

instance : Monad (Prog σ) where
  pure := ret
  bind := bind

/-- One atomic action. -/
def atomically (f : σ → α × σ) : Prog σ α :=
  act (fun _ => true) (fun s => (f s).2) fun s => ret (f s).1

/-- One atomic action that waits until the state is ready. -/
def whenReady (ready : σ → Bool) (f : σ → α × σ) : Prog σ α :=
  act ready (fun s => (f s).2) fun s => ret (f s).1

def read (f : σ → α) : Prog σ α := atomically fun s => (f s, s)

def modify (f : σ → σ) : Prog σ Unit := atomically fun s => ((), f s)

/-- A choice of the surroundings. -/
def pick : Prog σ Nat := choose ret

/-- The result of a program that nobody interrupts, with the choices of the surroundings and
as long as the states are `ok`. -/
def alone (ok : σ → Bool) : Prog σ α → List Nat → σ → Option (α × σ)
  | ret a, _, s => some (a, s)
  | act ready next cont, choices, s =>
    if ready s && ok (next s) then (cont s).alone ok choices (next s) else none
  | choose cont, choices, s => (cont (choices.headD 0)).alone ok choices.tail s

end Prog

/-! ## Runs -/

/-- What a caller sees. -/
inductive Event (ι α : Type)
  | called (n : Nat) (op : ι)
  | returned (n : Nat) (op : ι) (result : α)
  | restarted

/-- The shared state, the calls in flight and the number of the next call. -/
structure System (σ ι α : Type) where
  shared : σ
  pending : Nat → Option (ι × Prog σ α)
  fresh : Nat

/-- How a component works: the code of its calls, how its surroundings move, what a restart
keeps, and which steps are considered at all. -/
structure Component (σ ι α : Type) where
  program : Nat → ι → Prog σ α
  moves : σ → σ → Prop
  restarts : σ → σ → Prop
  allowed : σ → σ → Prop

/-- A component for as long as the state has `P`. -/
def Component.during {σ ι α : Type} (c : Component σ ι α) (P : σ → Prop) : Component σ ι α :=
  ⟨c.program, fun s s' => c.moves s s' ∧ P s', fun s s' => c.restarts s s' ∧ P s',
    fun s s' => c.allowed s s' ∧ P s'⟩

section Run

variable {σ ι α : Type} (c : Component σ ι α)

inductive Step : System σ ι α → List (Event ι α) → System σ ι α → Prop
  | call (sys : System σ ι α) (op : ι) :
      Step sys [.called sys.fresh op]
        ⟨sys.shared, Function.update sys.pending sys.fresh (some (op, c.program sys.fresh op)),
          sys.fresh + 1⟩
  | act (sys : System σ ι α) {n op ready next cont}
      (hpending : sys.pending n = some (op, .act ready next cont))
      (hready : ready sys.shared = true) (hallowed : c.allowed sys.shared (next sys.shared)) :
      Step sys []
        ⟨next sys.shared, Function.update sys.pending n (some (op, cont sys.shared)), sys.fresh⟩
  | choose (sys : System σ ι α) {n op cont} (hpending : sys.pending n = some (op, .choose cont))
      (i : Nat) :
      Step sys [] ⟨sys.shared, Function.update sys.pending n (some (op, cont i)), sys.fresh⟩
  | ret (sys : System σ ι α) {n op result} (hpending : sys.pending n = some (op, .ret result)) :
      Step sys [.returned n op result]
        ⟨sys.shared, Function.update sys.pending n none, sys.fresh⟩
  | move (sys : System σ ι α) {shared : σ} (hmoves : c.moves sys.shared shared) :
      Step sys [] ⟨shared, sys.pending, sys.fresh⟩
  | restart (sys : System σ ι α) {shared : σ} (hrestarts : c.restarts sys.shared shared) :
      Step sys [.restarted] ⟨shared, fun _ => none, sys.fresh⟩

/-- Steps one after the other, with the events in their order. -/
inductive Run (start : System σ ι α) : List (Event ι α) → System σ ι α → Prop
  | refl : Run start [] start
  | tail {events sys new sys'} (run : Run start events sys) (step : Step c sys new sys') :
      Run start (events ++ new) sys'

/-- The events of calls that are made one after the other, each alone, and the state they leave. -/
def events (ok : σ → Bool) (script : List (ι × List Nat)) (k : Nat) (s : σ) :
    Option (List (Event ι α) × σ) :=
  match script with
  | [] => some ([], s)
  | (op, choices) :: rest => do
    let (a, s') ← (c.program k op).alone ok choices s
    let (later, last) ← events ok rest (k + 1) s'
    pure (.called k op :: .returned k op a :: later, last)

variable {c} {sys start : System σ ι α}

theorem Run.trans {middle : System σ ι α} {before after : List (Event ι α)}
    (h : Run c start before middle) (h' : Run c middle after sys) :
    Run c start (before ++ after) sys := by
  induction h' with
  | refl =>
    rw [append_nil]
    exact h
  | tail _ step ih =>
    rw [← append_assoc]
    exact .tail ih step

variable {op : ι} {fresh k : Nat} {a : α} {ok : σ → Bool} {s : σ}

/-- A call that nobody interrupts goes on to its end. -/
theorem Run.alone (hallowed : ∀ s s', ok s' = true → c.allowed s s') {p : Prog σ α}
    {choices : List Nat} {s' : σ} (h : p.alone ok choices s = some (a, s')) :
    Run c ⟨s, Function.update (fun _ => none) k (some (op, p)), fresh⟩ [.returned k op a]
      ⟨s', fun _ => none, fresh⟩ := by
  have hself : ∀ p' : Prog σ α, Function.update (fun _ => none) k (some (op, p')) k =
      some (op, p') := fun p' => update_self _ _ _
  have hagain : ∀ (p' p'' : Prog σ α),
      Function.update (Function.update (fun _ => none) k (some (op, p'))) k (some (op, p'')) =
        Function.update (fun _ => none) k (some (op, p'')) := fun _ _ => update_idem _ _ _
  induction p generalizing choices s with
  | ret =>
    cases h
    have hstep := Step.ret (c := c)
      ⟨s', Function.update (fun _ => none) k (some (op, .ret a)), fresh⟩ (hself _)
    rw [update_idem, update_eq_self] at hstep
    exact Run.tail .refl hstep
  | act ready next cont ih =>
    unfold Prog.alone at h
    split at h
    next hready =>
      rw [Bool.and_eq_true] at hready
      have hstep := Step.act (c := c)
        ⟨s, Function.update (fun _ => none) k (some (op, .act ready next cont)), fresh⟩
        (hself _) hready.1 (hallowed _ _ hready.2)
      rw [hagain] at hstep
      exact Run.trans (Run.tail .refl hstep) (ih _ h)
    next => cases h
  | choose cont ih =>
    have hstep := Step.choose (c := c)
      ⟨s, Function.update (fun _ => none) k (some (op, .choose cont)), fresh⟩ (hself _)
      (choices.headD 0)
    rw [hagain] at hstep
    exact Run.trans (Run.tail .refl hstep) (ih _ h)

/-- Calls can be made one after the other, each alone. -/
theorem Run.of_events (ok : σ → Bool) (hallowed : ∀ s s', ok s' = true → c.allowed s s')
    (script : List (ι × List Nat)) :
    ∀ {k : Nat} {s s' : σ} {es : List (Event ι α)}, events c ok script k s = some (es, s') →
      Run c ⟨s, fun _ => none, k⟩ es ⟨s', fun _ => none, k + script.length⟩ := by
  induction script with
  | nil =>
    intro k s s' es h
    cases h
    exact .refl
  | cons call rest ih =>
    intro k s s' es h
    obtain ⟨op, _⟩ := call
    obtain ⟨⟨_, _⟩, halone, h⟩ := bind_eq_some_iff.1 h
    obtain ⟨⟨_, _⟩, hlater, h⟩ := bind_eq_some_iff.1 h
    cases h
    have hcall := Step.call (c := c) ⟨s, fun _ => none, k⟩ op
    have hfirst := (Run.tail .refl hcall).trans (Run.alone hallowed halone)
    rw [length_cons, add_comm rest.length 1, ← add_assoc]
    exact hfirst.trans (ih hlater)

/-- Such a run, with what follows from its events. -/
theorem Run.exists_of_events (ok : σ → Bool) (hallowed : ∀ s s', ok s' = true → c.allowed s s')
    (script : List (ι × List Nat)) {es : List (Event ι α)}
    (h : (events c ok script k s).map Prod.fst = some es) {Q : System σ ι α → Prop}
    (hQ : ∀ sys, Run c ⟨s, fun _ => none, k⟩ es sys → Q sys) :
    ∃ sys, Run c ⟨s, fun _ => none, k⟩ es sys ∧ Q sys := by
  obtain ⟨⟨_, _⟩, hevents, rfl⟩ := map_eq_some_iff.1 h
  have hrun := Run.of_events ok hallowed script hevents
  exact ⟨_, hrun, hQ _ hrun⟩

variable {sys' : System σ ι α} {new : List (Event ι α)}

theorem Step.events_cases (h : Step c sys new sys') : new = [] ∨ ∃ event, new = [event] := by
  cases h with
  | call => exact .inr ⟨_, rfl⟩
  | act | choose => exact .inl rfl
  | ret => exact .inr ⟨_, rfl⟩
  | move => exact .inl rfl
  | restart => exact .inr ⟨_, rfl⟩

variable {events : List (Event ι α)}

/-- A run can be cut behind any of its events. -/
theorem Run.split (h : Run c start events sys) {before after : List (Event ι α)} {event : Event ι α}
    (hevents : events = before ++ event :: after) :
    ∃ middle, Run c start (before ++ [event]) middle ∧ Run c middle after sys := by
  induction h generalizing before after event with
  | refl =>
    exact absurd hevents.symm (append_ne_nil_of_right_ne_nil _ (cons_ne_nil _ _))
  | @tail _ _ _ sys' run step ih =>
    rcases step.events_cases with rfl | ⟨last, rfl⟩
    · rw [append_nil] at hevents
      obtain ⟨middle, hfront, hback⟩ := ih hevents
      have hmore := Run.tail hback step
      rw [append_nil] at hmore
      exact ⟨middle, hfront, hmore⟩
    · rcases eq_nil_or_concat after with rfl | ⟨_, _, rfl⟩
      · -- The cut is behind the last step.
        obtain ⟨hinit, hlast⟩ := append_inj' hevents rfl
        rw [← hinit, ← hlast]
        exact ⟨sys', .tail run step, .refl⟩
      · rw [concat_eq_append, ← cons_append, ← append_assoc] at hevents
        obtain ⟨hinit, hlast⟩ := append_inj' hevents rfl
        obtain ⟨middle, hfront, hback⟩ := ih hinit
        rw [concat_eq_append, ← hlast]
        exact ⟨middle, hfront, .tail hback step⟩

theorem Step.fresh_le (h : Step c sys new sys') : sys.fresh ≤ sys'.fresh := by
  cases h with
  | call => exact Nat.le_succ _
  | act | choose | ret | move | restart => exact le_rfl

theorem Run.fresh_le (h : Run c start events sys) : start.fresh ≤ sys.fresh := by
  induction h with
  | refl => exact le_rfl
  | tail _ step ih => exact le_trans ih step.fresh_le

variable {n : Nat}

/-- The event of a call is of the step that starts it, with the next number. -/
theorem Step.called (h : Step c sys new sys') (hcalled : .called n op ∈ new) :
    n = sys.fresh ∧ sys'.fresh = n + 1 := by
  cases h with
  | call =>
    cases mem_singleton.1 hcalled
    exact ⟨rfl, rfl⟩
  | act | choose => cases hcalled
  | ret => cases mem_singleton.1 hcalled
  | move => cases hcalled
  | restart => cases mem_singleton.1 hcalled

/-- The event of a result is of the step that ends the call. -/
theorem Step.returned (h : Step c sys new sys') (hreturned : .returned n op a ∈ new) :
    sys.pending n = some (op, .ret a) ∧
      sys' = ⟨sys.shared, Function.update sys.pending n none, sys.fresh⟩ := by
  cases h with
  | call => cases mem_singleton.1 hreturned
  | act | choose => cases hreturned
  | ret hpending =>
    cases mem_singleton.1 hreturned
    exact ⟨hpending, rfl⟩
  | move => cases hreturned
  | restart => cases mem_singleton.1 hreturned

section

variable (h : Run c start events sys) (hcalled : .called n op ∈ events)

include h hcalled

/-- Calls of a run have numbers that were free before it. -/
theorem Run.called_fresh : start.fresh ≤ n := by
  induction h with
  | refl => cases hcalled
  | tail run step ih =>
    rcases mem_append.1 hcalled with hold | hnew
    · exact ih hold
    · exact (step.called hnew).1 ▸ run.fresh_le

theorem Run.called_lt : n < sys.fresh := by
  induction h with
  | refl => cases hcalled
  | tail _ step ih =>
    rcases mem_append.1 hcalled with hold | hnew
    · exact lt_of_lt_of_le (ih hold) step.fresh_le
    · rw [(step.called hnew).2]
      exact Nat.lt_succ_self _

/-- No number is used twice. -/
theorem Run.called_unique {op' : ι} (hcalled' : .called n op' ∈ events) : op = op' := by
  induction h with
  | refl => cases hcalled
  | @tail _ _ _ _ run step ih =>
    rcases step.events_cases with rfl | ⟨_, rfl⟩
    · rw [append_nil] at hcalled hcalled'
      exact ih hcalled hcalled'
    rcases mem_append.1 hcalled with hold | hnew
    · rcases mem_append.1 hcalled' with hold' | hnew'
      · exact ih hold hold'
      · rw [(step.called hnew').1] at hold
        exact absurd (run.called_lt hold) (lt_irrefl _)
    rcases mem_append.1 hcalled' with hold' | hnew'
    · rw [(step.called hnew).1] at hold'
      exact absurd (run.called_lt hold') (lt_irrefl _)
    · have heq := (mem_singleton.1 hnew).trans (mem_singleton.1 hnew').symm
      cases heq
      rfl

end

/-- The operation of each call of a run, and another for numbers without a call. -/
theorem Run.exists_ops (h : Run c start events sys) (other : ι) :
    ∃ ops : Nat → ι, (∀ n op, .called n op ∈ events → ops n = op) ∧
      ∀ n, ops n = other ∨ .called n (ops n) ∈ events := by
  classical
  refine ⟨fun n => if hn : ∃ op, .called n op ∈ events then hn.choose else other, ?_, ?_⟩
  · intro n op hcalled
    have hn : ∃ op, .called n op ∈ events := ⟨op, hcalled⟩
    dsimp only
    rw [dif_pos hn]
    exact h.called_unique hn.choose_spec hcalled
  · intro n
    dsimp only
    by_cases hn : ∃ op, .called n op ∈ events
    · right
      rw [dif_pos hn]
      exact hn.choose_spec
    · left
      rw [dif_neg hn]

/-- Calls in flight have used numbers. -/
def System.Numbered (sys : System σ ι α) : Prop := ∀ n, sys.fresh ≤ n → sys.pending n = none

variable {shared : σ}

theorem numbered_none : (⟨shared, fun _ => none, fresh⟩ : System σ ι α).Numbered := fun _ _ => rfl

variable {m : Nat}

theorem System.Numbered.update (h : sys.Numbered) (hm : m < fresh) (hfresh : sys.fresh ≤ fresh)
    (shared : σ) (call : Option (ι × Prog σ α)) :
    (⟨shared, Function.update sys.pending m call, fresh⟩ : System σ ι α).Numbered := by
  intro n hn
  have hne : n ≠ m := by
    have hle : fresh ≤ n := hn
    omega
  show Function.update sys.pending m call n = none
  rw [Function.update_of_ne hne]
  exact h n (le_trans hfresh hn)

theorem System.Numbered.lt (h : sys.Numbered) {call : ι × Prog σ α}
    (hcall : sys.pending n = some call) : n < sys.fresh := by
  by_contra hge
  rw [h n (Nat.le_of_not_lt hge)] at hcall
  cases hcall

theorem Step.numbered (h : Step c sys new sys') (hnumbered : sys.Numbered) : sys'.Numbered := by
  cases h with
  | call => exact hnumbered.update (Nat.lt_succ_self _) (Nat.le_succ _) _ _
  | act hpending =>
    exact hnumbered.update (hnumbered.lt hpending) le_rfl _ _
  | choose hpending | ret hpending => exact hnumbered.update (hnumbered.lt hpending) le_rfl _ _
  | move => exact hnumbered
  | restart => exact numbered_none

theorem Run.numbered (h : Run c start events sys) (hnumbered : start.Numbered) : sys.Numbered := by
  induction h with
  | refl => exact hnumbered
  | tail _ step ih => exact step.numbered ih

/-! ## Rely and guarantee -/

section Rely

variable (c) (rely : Nat → σ → σ → Prop)

/-- The rest of call `n` keeps what the others rely on, and returns what `Q` allows. -/
def Valid {β : Type} (n : Nat) : Prog σ β → σ → (β → σ → Prop) → Prop
  | .ret a, s, Q => ∀ s', rely n s s' → Q a s'
  | .act ready next cont, s, Q => ∀ s', rely n s s' → ready s' = true → c.allowed s' (next s') →
      (∀ m, m ≠ n → rely m s' (next s')) ∧ Valid n (cont s') (next s') Q
  | .choose cont, s, Q => ∀ i, Valid n (cont i) s Q

/-- What each call may rely on is a preorder, and the surroundings keep it. -/
structure Relies : Prop where
  refl : ∀ n s, rely n s s
  trans : ∀ n {s s' s''}, rely n s s' → rely n s' s'' → rely n s s''
  moves : ∀ n {s s'}, c.moves s s' → rely n s s'

variable {c rely} {β γ : Type} {n : Nat} {s s' : σ} {p : Prog σ β} {Q : β → σ → Prop}

theorem Valid.stable (hr : Relies c rely) (h : Valid c rely n p s Q) (hs : rely n s s') :
    Valid c rely n p s' Q := by
  induction p with
  | ret => exact fun s'' hs' => h s'' (hr.trans n hs hs')
  | act =>
    exact fun s'' hs' hready hallowed => h s'' (hr.trans n hs hs') hready hallowed
  | choose _ ih => exact fun i => ih i (h i)

theorem Valid.mono {Q' : β → σ → Prop} (h : Valid c rely n p s Q) (hQ : ∀ a s, Q a s → Q' a s) :
    Valid c rely n p s Q' := by
  induction p generalizing s with
  | ret a => exact fun s' hs => hQ a s' (h s' hs)
  | act _ _ _ ih =>
    intro s' hs hready hallowed
    obtain ⟨hothers, hrest⟩ := h s' hs hready hallowed
    exact ⟨hothers, ih s' hrest⟩
  | choose _ ih => exact fun i => ih i (h i)

theorem Valid.bind (hr : Relies c rely) {k : β → Prog σ γ} {Q : γ → σ → Prop}
    (h : Valid c rely n p s fun a s' => Valid c rely n (k a) s' Q) :
    Valid c rely n (p >>= k) s Q := by
  induction p generalizing s with
  | ret => exact h s (hr.refl n s)
  | act _ _ _ ih =>
    intro s' hs hready hallowed
    obtain ⟨hothers, hrest⟩ := h s' hs hready hallowed
    exact ⟨hothers, ih s' hrest⟩
  | choose _ ih => exact fun i => ih i (h i)

theorem Valid.map {f : β → γ} {Q : γ → σ → Prop} (h : Valid c rely n p s fun a s' => Q (f a) s') :
    Valid c rely n (f <$> p) s Q := by
  induction p generalizing s with
  | ret => exact h
  | act _ _ _ ih =>
    intro s' hs hready hallowed
    obtain ⟨hothers, hrest⟩ := h s' hs hready hallowed
    exact ⟨hothers, ih s' hrest⟩
  | choose _ ih => exact fun i => ih i (h i)

theorem Valid.pure {a : β} (h : ∀ s', rely n s s' → Q a s') : Valid c rely n (pure a) s Q := h

/-- A program valid in one setting is valid where the calls rely on more and guarantee less. -/
theorem Valid.weaken {c' : Component σ ι α} {rely' : Nat → σ → σ → Prop} (h : Valid c rely n p s Q)
    (hrely : ∀ s s', rely' n s s' → rely n s s')
    (hallowed : ∀ s s', c'.allowed s s' → c.allowed s s')
    (hguarantee : ∀ m s s', c'.allowed s s' → rely m s s' → rely' m s s') :
    Valid c' rely' n p s Q := by
  induction p generalizing s with
  | ret => exact fun s' hs => h s' (hrely s s' hs)
  | act _ _ _ ih =>
    intro s' hs hready hstep
    obtain ⟨hothers, hrest⟩ := h s' (hrely s s' hs) hready (hallowed _ _ hstep)
    exact ⟨fun m hm => hguarantee m _ _ hstep (hothers m hm), ih s' hrest⟩
  | choose _ ih => exact fun i => ih i (h i)

variable {f : σ → β × σ}

theorem Valid.whenReady {ready : σ → Bool}
    (h : ∀ s', rely n s s' → ready s' = true → c.allowed s' (f s').2 →
      (∀ m, m ≠ n → rely m s' (f s').2) ∧ ∀ s'', rely n (f s').2 s'' → Q (f s').1 s'') :
    Valid c rely n (.whenReady ready f) s Q := h

theorem Valid.atomically
    (h : ∀ s', rely n s s' → c.allowed s' (f s').2 →
      (∀ m, m ≠ n → rely m s' (f s').2) ∧ ∀ s'', rely n (f s').2 s'' → Q (f s').1 s'') :
    Valid c rely n (.atomically f) s Q := fun s' hs _ => h s' hs

/-- Reading changes nothing. -/
theorem Valid.read (hr : Relies c rely) {f : σ → β}
    (h : ∀ s', rely n s s' → ∀ s'', rely n s' s'' → Q (f s') s'') : Valid c rely n (.read f) s Q :=
  Valid.atomically fun s' hs _ => ⟨fun m _ => hr.refl m s', h s' hs⟩

theorem Valid.modify {f : σ → σ} {Q : Unit → σ → Prop}
    (h : ∀ s', rely n s s' → c.allowed s' (f s') →
      (∀ m, m ≠ n → rely m s' (f s')) ∧ ∀ s'', rely n (f s') s'' → Q () s'') :
    Valid c rely n (.modify f) s Q := Valid.atomically h

theorem Valid.pick {Q : Nat → σ → Prop} (h : ∀ i, ∀ s', rely n s s' → Q i s') :
    Valid c rely n .pick s Q := h

/-! ## Runs of valid calls -/

variable (c rely) in
/-- Every call in flight is valid, with results as `Q` says. -/
def InFlight (Q : Nat → ι → α → σ → Prop) (sys : System σ ι α) : Prop :=
  ∀ n op p, sys.pending n = some (op, p) → Valid c rely n p sys.shared (Q n op)

variable {Q : Nat → ι → α → σ → Prop}

theorem inFlight_none {fresh : Nat} : InFlight c rely Q ⟨shared, fun _ => none, fresh⟩ := by
  intro n op p h
  cases h

variable {Q' : Nat → ι → α → σ → Prop} {sys : System σ ι α}

theorem InFlight.mono (h : InFlight c rely Q sys) (hQ : ∀ n op a s, Q n op a s → Q' n op a s) :
    InFlight c rely Q' sys :=
  fun n op p hp => (h n op p hp).mono (hQ n op)

/-- The calls in flight, with one of them replaced and the others seeing its step. -/
theorem InFlight.update (hr : Relies c rely) (h : InFlight c rely Q sys)
    {call : Option (ι × Prog σ α)} (hothers : ∀ n, n ≠ m → rely n sys.shared shared)
    (hcall : ∀ op p, call = some (op, p) → Valid c rely m p shared (Q m op)) (fresh : Nat) :
    InFlight c rely Q ⟨shared, Function.update sys.pending m call, fresh⟩ := by
  intro n op p hp
  by_cases hn : n = m
  · subst hn
    have hcall' : call = some (op, p) := by
      have hself := hp
      dsimp only at hself
      rwa [update_self] at hself
    exact hcall op p hcall'
  · have hold : sys.pending n = some (op, p) := by
      have hother := hp
      dsimp only at hother
      rwa [Function.update_of_ne hn] at hother
    exact (h n op p hold).stable hr (hothers n hn)

variable (c rely) in
/-- `J` lasts, also across restarts. A call that starts in a state with `J` and with `U`, which
lasts until then, returns what `Q` says, which lasts from then on. -/
structure Sound (J : σ → Prop) (U : Nat → ι → σ → Prop) (Q : Nat → ι → α → σ → Prop) :
    Prop where
  relies : Relies c rely
  keeps : ∀ m {s s'}, rely m s s' → J s → J s'
  keeps_restart : ∀ {s s'}, c.restarts s s' → J s → J s'
  untouched : ∀ n op {s s'}, rely n s s' → U n op s → U n op s'
  untouched_restart : ∀ n op {s s'}, c.restarts s s' → U n op s → U n op s'
  lasting : ∀ n op a {s s'}, rely n s s' → Q n op a s → Q n op a s'
  lasting_restart : ∀ n op a {s s'}, c.restarts s s' → J s → Q n op a s → Q n op a s'
  start : ∀ n op s, J s → U n op s → Valid c rely n (c.program n op) s (Q n op)

variable {sys' : System σ ι α}

/-- A step is a restart, or all calls that do not take it can rely on it. -/
theorem Step.seen (hr : Relies c rely) (h : Step c sys new sys') (hflight : InFlight c rely Q sys) :
    c.restarts sys.shared sys'.shared ∨
      ∃ k, sys.pending k ≠ none ∧ (∀ n, n ≠ k → rely n sys.shared sys'.shared) ∨
        ∀ n, rely n sys.shared sys'.shared := by
  cases h with
  | call => exact .inr ⟨0, .inr fun n => hr.refl n _⟩
  | @act n op _ _ _ hpending hready hallowed =>
    obtain ⟨hothers, _⟩ := hflight n op _ hpending sys.shared (hr.refl n _) hready hallowed
    refine .inr ⟨n, .inl ⟨?_, hothers⟩⟩
    rw [hpending]
    exact some_ne_none _
  | choose | ret => exact .inr ⟨0, .inr fun n => hr.refl n _⟩
  | move hmoves => exact .inr ⟨0, .inr fun n => hr.moves n hmoves⟩
  | restart hrestarts => exact .inl hrestarts

variable {J : σ → Prop} {U : Nat → ι → σ → Prop}

section

variable (hsound : Sound c rely J U Q) (h : Step c sys new sys')

include hsound h

/-- One step keeps the calls in flight valid. -/
theorem Step.inFlight (hJ : J sys.shared)
    (hU : ∀ op, .called sys.fresh op ∈ new → U sys.fresh op sys.shared)
    (hflight : InFlight c rely (fun n op a s => k ≤ n → Q n op a s) sys) :
    InFlight c rely (fun n op a s => k ≤ n → Q n op a s) sys' := by
  have hr := hsound.relies
  cases h with
  | call op =>
    refine hflight.update hr (fun n _ => hr.refl n _) ?_ _
    intro op' p hp
    cases hp
    exact (hsound.start _ op _ hJ (hU op (mem_singleton_self _))).mono fun a s hQ _ => hQ
  | @act n op _ _ _ hpending hready hallowed =>
    obtain ⟨hothers, hrest⟩ := hflight n op _ hpending sys.shared (hr.refl n _) hready hallowed
    refine hflight.update hr hothers ?_ _
    intro op' p hp
    cases hp
    exact hrest
  | @choose n op _ hpending i =>
    refine hflight.update hr (fun n _ => hr.refl n _) ?_ _
    intro op' p hp
    cases hp
    exact hflight n op _ hpending i
  | ret =>
    refine hflight.update hr (fun n _ => hr.refl n _) ?_ _
    intro op' p hp
    cases hp
  | move hmoves => exact fun n op p hp => (hflight n op p hp).stable hr (hr.moves n hmoves)
  | restart => exact inFlight_none

section

variable (hflight : InFlight c rely Q' sys)

include hflight

theorem Step.keeps (hJ : J sys.shared) : J sys'.shared := by
  rcases h.seen hsound.relies hflight with hrestart | ⟨k, ⟨_, hothers⟩ | hall⟩
  · exact hsound.keeps_restart hrestart hJ
  · exact hsound.keeps (k + 1) (hothers (k + 1) (Nat.succ_ne_self k)) hJ
  · exact hsound.keeps 0 (hall 0) hJ

/-- A result that was returned lasts. -/
theorem Step.lasting (hJ : J sys.shared) {n : Nat} {op : ι} (hgone : sys.pending n = none)
    (hQ : Q n op a sys.shared) : Q n op a sys'.shared := by
  rcases h.seen hsound.relies hflight with hrestart | ⟨_, ⟨hpending, hothers⟩ | hall⟩
  · exact hsound.lasting_restart n op a hrestart hJ hQ
  · refine hsound.lasting n op a (hothers n ?_) hQ
    rintro rfl
    exact hpending hgone
  · exact hsound.lasting n op a (hall n) hQ

/-- What is known of a call to come lasts. -/
theorem Step.untouched {n : Nat} {op : ι} (hnone : sys.pending n = none) (hU : U n op sys.shared) :
    U n op sys'.shared := by
  rcases h.seen hsound.relies hflight with hrestart | ⟨_, ⟨hpending, hothers⟩ | hall⟩
  · exact hsound.untouched_restart n op hrestart hU
  · refine hsound.untouched n op (hothers n ?_) hU
    rintro rfl
    exact hpending hnone
  · exact hsound.untouched n op (hall n) hU

end

end

/-- A call that is over stays over. -/
theorem Step.gone (h : Step c sys new sys') {n : Nat} (hn : n < sys.fresh)
    (hgone : sys.pending n = none) : sys'.pending n = none := by
  have hother : ∀ {k : Nat} {call : ι × Prog σ α} {next}, sys.pending k = some call →
      Function.update sys.pending k next n = none := by
    intro k call next hcall
    rwa [Function.update_of_ne]
    rintro rfl
    rw [hgone] at hcall
    cases hcall
  cases h with
  | call =>
    show Function.update sys.pending sys.fresh _ n = none
    rw [Function.update_of_ne (ne_of_lt hn)]
    exact hgone
  | act hpending | choose hpending | ret hpending => exact hother hpending
  | move => exact hgone
  | restart => rfl

/-- A call that is over does not return again. -/
theorem Run.gone (h : Run c start events sys) {n : Nat} (hn : n < start.fresh)
    (hgone : start.pending n = none) :
    sys.pending n = none ∧ ∀ op a, .returned n op a ∉ events := by
  induction h with
  | refl => exact ⟨hgone, fun op a hreturned => by cases hreturned⟩
  | @tail _ _ _ _ run step ih =>
    obtain ⟨hgone', hnot⟩ := ih
    refine ⟨step.gone (lt_of_lt_of_le hn run.fresh_le) hgone', fun op a hreturned => ?_⟩
    rcases mem_append.1 hreturned with hold | hnew
    · exact hnot op a hold
    · rw [(step.returned hnew).1] at hgone'
      cases hgone'

/-- Along a run from a state with `J`, the calls it starts return what `Q` says. -/
theorem Run.returned (hsound : Sound c rely J U Q) (h : Run c start events sys)
    (hnumbered : start.Numbered) (hJ : J start.shared)
    (hU : ∀ n op, .called n op ∈ events → U n op start.shared)
    (hflight : InFlight c rely (fun _ _ _ _ => True) start) :
    J sys.shared ∧ (∀ n op, sys.fresh ≤ n → U n op start.shared → U n op sys.shared) ∧
      InFlight c rely (fun n op a s => start.fresh ≤ n → Q n op a s) sys ∧
      ∀ n op a, start.fresh ≤ n → .returned n op a ∈ events →
        Q n op a sys.shared ∧ sys.pending n = none ∧ n < sys.fresh := by
  have hr := hsound.relies
  induction h with
  | refl =>
    refine ⟨hJ, fun n op _ h => h, ?_, fun n op a _ hreturned => by cases hreturned⟩
    intro n op p hp
    refine (hflight n op p hp).mono fun a s _ hn => ?_
    exact absurd (hnumbered.lt hp) (not_lt.2 hn)
  | @tail _ sys _ _ run step ih =>
    obtain ⟨hJ', hU', hflight', hreturned⟩ := ih fun n op hcalled =>
      hU n op (mem_append_left _ hcalled)
    have hnumbered' := run.numbered hnumbered
    refine ⟨step.keeps hsound hflight' hJ', fun n op hn huntouched => ?_,
      step.inFlight hsound hJ' (fun op hcalled => ?_) hflight', ?_⟩
    · have hle := le_trans step.fresh_le hn
      exact step.untouched hsound hflight' (hnumbered' n hle) (hU' n op hle huntouched)
    · exact hU' _ op le_rfl (hU _ op (mem_append_right _ hcalled))
    intro n op a hn hevent
    rcases mem_append.1 hevent with hold | hnew
    · obtain ⟨hQ, hgone, hlt⟩ := hreturned n op a hn hold
      exact ⟨step.lasting hsound hflight' hJ' hgone hQ, step.gone hlt hgone,
        lt_of_lt_of_le hlt step.fresh_le⟩
    · obtain ⟨hpending, rfl⟩ := step.returned hnew
      exact ⟨hflight' n op _ hpending sys.shared (hr.refl n _) hn, update_self _ _ _,
        hnumbered'.lt hpending⟩

/-! ## Counting results -/

def Event.returnNumber : Event ι α → Option Nat
  | .returned n _ _ => some n
  | _ => none

/-- No call returns twice. -/
theorem Run.returnNumbers (h : Run c start events sys) (hnumbered : start.Numbered) :
    (events.filterMap Event.returnNumber).Nodup ∧
      ∀ n ∈ events.filterMap Event.returnNumber, n < sys.fresh ∧ sys.pending n = none := by
  induction h with
  | refl => exact ⟨nodup_nil, fun n hn => by cases hn⟩
  | @tail events sys _ sys' run step ih =>
    obtain ⟨hnodup, hgone⟩ := ih
    have hold : ∀ n ∈ events.filterMap Event.returnNumber, n < sys'.fresh ∧ sys'.pending n = none :=
      fun n hn => ⟨lt_of_lt_of_le (hgone n hn).1 step.fresh_le,
        step.gone (hgone n hn).1 (hgone n hn).2⟩
    rw [filterMap_append]
    cases step with
    | call op =>
      rw [show [Event.called sys.fresh op].filterMap Event.returnNumber = [] from rfl, append_nil]
      exact ⟨hnodup, hold⟩
    | act | choose => exact ⟨by simpa using hnodup, by simpa using hold⟩
    | @ret n _ _ hpending =>
      have hnew : n ∉ events.filterMap Event.returnNumber := by
        intro hn
        rw [(hgone n hn).2] at hpending
        cases hpending
      refine ⟨nodup_append.2 ⟨hnodup, nodup_singleton n, fun m hm m' hm' heq => ?_⟩,
        forall_mem_append.2 ⟨hold, forall_mem_singleton.2
          ⟨(run.numbered hnumbered).lt hpending, update_self _ _ _⟩⟩⟩
      rw [mem_singleton.1 hm'] at heq
      exact hnew (heq ▸ hm)
    | move => exact ⟨by simpa using hnodup, by simpa using hold⟩
    | restart =>
      rw [show ([.restarted] : List (Event ι α)).filterMap Event.returnNumber = [] from rfl,
        append_nil]
      exact ⟨hnodup, hold⟩

/-- Results that each belong to one of the listed calls. -/
theorem Run.countP_le (h : Run c start events sys) (hnumbered : start.Numbered)
    {p : Event ι α → Bool} {ns : List Nat}
    (hp : ∀ e ∈ events, p e = true → ∃ n ∈ ns, e.returnNumber = some n) :
    events.countP p ≤ ns.length := by
  have hsub : (events.filter p).filterMap Event.returnNumber ⊆ ns := by
    intro n hn
    obtain ⟨e, he, hnumber⟩ := mem_filterMap.1 hn
    rw [mem_filter] at he
    obtain ⟨_, hm, hnumber'⟩ := hp e he.1 he.2
    rw [hnumber] at hnumber'
    cases hnumber'
    exact hm
  have hnodup : ((events.filter p).filterMap Event.returnNumber).Nodup :=
    (h.returnNumbers hnumbered).1.sublist (filter_sublist.filterMap _)
  have hlength : ((events.filter p).filterMap Event.returnNumber).length = events.countP p := by
    rw [countP_eq_length_filter, length_filterMap_eq_countP, countP_eq_length]
    intro e he
    rw [mem_filter] at he
    obtain ⟨_, _, hnumber⟩ := hp e he.1 he.2
    rw [hnumber]
    rfl
  rw [← hlength]
  exact (hnodup.subperm hsub).length_le

end Rely

end Run

end Astrid.Calls
