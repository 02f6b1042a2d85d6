import Astrid.Lib.Calls

/-!
# Resources that are issued and spent

Calls issue and spend amounts of resources that a shared store keeps; `weight` is how much of
each resource the store has left. A ledger beside the store logs which call issued how much
and which call spent a unit, with what was left before. For a resource that is issued once,
the logged weights fall strictly (`Kept.descends`), whatever else happens to the store as long
as nothing raises a weight: so no more calls spend than there were units, and no two spend the
same one.
-/

namespace Astrid.Calls

open List

variable {τ κ : Type} [DecidableEq κ]

/-- A store with the calls that issued and those that spent: call, resource, and the amount or
what was left before. -/
structure Ledger (τ κ : Type) where
  store : τ
  issued : List (Nat × κ × Nat)
  spent : List (Nat × κ × Nat)

namespace Ledger

def issuedOf (l : Ledger τ κ) (h : κ) : List (Nat × κ × Nat) := l.issued.filter fun e => e.2.1 = h

def spentOf (l : Ledger τ κ) (h : κ) : List (Nat × κ × Nat) := l.spent.filter fun e => e.2.1 = h

/-- What was left before each spending, the last first. -/
def lefts (l : Ledger τ κ) (h : κ) : List Nat := (l.spentOf h).map fun e => e.2.2

section Kept

variable (weight : τ → κ → Nat) (made : Nat → κ → Nat → Prop) (tracked : κ → Prop)

/-- Calls issue what `made` says, each once. Of the resources that are tracked, there is nothing
of one that was not issued, and what is left of one that was issued once falls with every
spending. -/
structure Kept (l : Ledger τ κ) : Prop where
  made : ∀ n h k, (n, h, k) ∈ l.issued → made n h k
  once : l.issued.Pairwise fun e e' => e.1 ≠ e'.1
  before : ∀ h, tracked h → l.issuedOf h = [] → weight l.store h = 0 ∧ l.spentOf h = []
  descends : ∀ h e, tracked h → l.issuedOf h = [e] →
    (weight l.store h :: l.lefts h).Pairwise (· < ·) ∧
    ∀ w ∈ weight l.store h :: l.lefts h, w ≤ e.2.2

variable {weight made tracked} {l : Ledger τ κ} {n : Nat} {h : κ} {store : τ}

/-- A lower weight in front keeps a list increasing and below its bound. -/
theorem descends_cons_le {w w' k : Nat} {ws : List Nat} (hle : w' ≤ w)
    (hws : (w :: ws).Pairwise (· < ·) ∧ ∀ v ∈ w :: ws, v ≤ k) :
    (w' :: ws).Pairwise (· < ·) ∧ ∀ v ∈ w' :: ws, v ≤ k := by
  rw [pairwise_cons, forall_mem_cons] at hws ⊢
  exact ⟨⟨fun v hv => lt_of_le_of_lt hle (hws.1.1 v hv), hws.1.2⟩, hle.trans hws.2.1, hws.2.2⟩

/-- No weight rises. -/
theorem Kept.quiet (hl : l.Kept weight made tracked)
    (hweight : ∀ h, weight store h ≤ weight l.store h) :
    Kept weight made tracked { l with store } where
  __ := hl
  before h htracked hnone := by
    obtain ⟨hzero, hspent⟩ := hl.before h htracked hnone
    refine ⟨?_, hspent⟩
    have hle := hweight h
    rw [hzero] at hle
    exact Nat.le_zero.1 hle
  descends h e htracked hone := descends_cons_le (hweight h) (hl.descends h e htracked hone)

theorem spentOf_cons (n : Nat) (h h' : κ) (w : Nat) :
    spentOf { l with store, spent := (n, h, w) :: l.spent } h' =
      if h = h' then (n, h, w) :: l.spentOf h' else l.spentOf h' := by
  unfold spentOf
  by_cases hh : h = h' <;> simp [hh]

theorem issuedOf_cons (n : Nat) (h h' : κ) (k : Nat) :
    issuedOf { l with store, issued := (n, h, k) :: l.issued } h' =
      if h = h' then (n, h, k) :: l.issuedOf h' else l.issuedOf h' := by
  unfold issuedOf
  by_cases hh : h = h' <;> simp [hh]

/-- A unit is spent. -/
theorem Kept.spend (hl : l.Kept weight made tracked)
    (hweight : ∀ h', weight store h' ≤ weight l.store h')
    (hlower : weight store h < weight l.store h) :
    Kept weight made tracked { l with store, spent := (n, h, weight l.store h) :: l.spent } := by
  have hother : ∀ h', h ≠ h' →
      lefts { l with store, spent := (n, h, weight l.store h) :: l.spent } h' = l.lefts h' := by
    intro h' hh
    unfold lefts
    rw [spentOf_cons, if_neg hh]
  refine ⟨hl.made, hl.once, fun h' htracked hnone => ?_, fun h' e htracked hone => ?_⟩
  · obtain ⟨hzero, hspent⟩ := hl.before h' htracked hnone
    have hle := hweight h'
    rw [hzero] at hle
    refine ⟨Nat.le_zero.1 hle, ?_⟩
    -- Nothing is left of what was never issued, so this is another resource.
    have hh : h ≠ h' := by
      intro hh
      rw [hh, hzero] at hlower
      exact Nat.not_lt_zero _ hlower
    rw [spentOf_cons, if_neg hh]
    exact hspent
  · have hdescends := hl.descends h' e htracked hone
    by_cases hh : h = h'
    · subst hh
      obtain ⟨hpairwise, hbound⟩ := hdescends
      have hlefts : lefts { l with store, spent := (n, h, weight l.store h) :: l.spent } h =
          weight l.store h :: l.lefts h := by
        unfold lefts
        rw [spentOf_cons, if_pos rfl, map_cons]
      rw [hlefts]
      constructor
      · refine pairwise_cons.2 ⟨fun v hv => ?_, hpairwise⟩
        rcases mem_cons.1 hv with rfl | hold
        · exact hlower
        · exact lt_trans hlower ((pairwise_cons.1 hpairwise).1 v hold)
      · exact forall_mem_cons.2 ⟨le_trans (le_of_lt hlower) (hbound _ mem_cons_self), hbound⟩
    · rw [hother h' hh]
      exact descends_cons_le (hweight h') hdescends

/-- An amount is issued, by a call that has not issued anything. -/
theorem Kept.issue (hl : l.Kept weight made tracked) {k : Nat} (hmade : made n h k)
    (hnew : ∀ h' k', (n, h', k') ∉ l.issued)
    (hweight : ∀ h', h' ≠ h → weight store h' ≤ weight l.store h')
    (hraise : weight store h ≤ weight l.store h + k) :
    Kept weight made tracked { l with store, issued := (n, h, k) :: l.issued } := by
  refine ⟨fun m h' k' hmem => ?_, ?_, fun h' htracked hnone => ?_, fun h' e htracked hone => ?_⟩
  · rcases mem_cons.1 hmem with heq | hold
    · cases heq
      exact hmade
    · exact hl.made m h' k' hold
  · refine pairwise_cons.2 ⟨fun e he hn => ?_, hl.once⟩
    obtain ⟨_, h', k'⟩ := e
    cases hn
    exact hnew h' k' he
  · rw [issuedOf_cons] at hnone
    by_cases hh : h = h'
    · rw [if_pos hh] at hnone
      cases hnone
    rw [if_neg hh] at hnone
    obtain ⟨hzero, hspent⟩ := hl.before h' htracked hnone
    have hle := hweight h' fun heq => hh heq.symm
    rw [hzero] at hle
    exact ⟨Nat.le_zero.1 hle, hspent⟩
  · rw [issuedOf_cons] at hone
    by_cases hh : h = h'
    · subst hh
      rw [if_pos rfl] at hone
      obtain ⟨he, hnone⟩ := cons.inj hone
      obtain ⟨hzero, hspent⟩ := hl.before h htracked hnone
      have hlefts : lefts { l with store, issued := (n, h, k) :: l.issued } h = [] := by
        show (l.spentOf h).map _ = []
        rw [hspent, map_nil]
      rw [hlefts, ← he]
      rw [hzero, zero_add] at hraise
      refine ⟨pairwise_singleton _ _, fun w hw => ?_⟩
      rw [mem_singleton.1 hw]
      exact hraise
    · rw [if_neg hh] at hone
      exact descends_cons_le (hweight h' fun heq => hh heq.symm) (hl.descends h' e htracked hone)

/-- An increasing list of numbers up to `k` has at most as many as lie from its first to `k`. -/
theorem add_length_le {a k : Nat} {ws : List Nat} (hws : (a :: ws).Pairwise (· < ·))
    (hbound : ∀ w ∈ a :: ws, w ≤ k) : a + ws.length ≤ k := by
  induction ws generalizing a with
  | nil => exact hbound a mem_cons_self
  | cons b _ ih =>
    obtain ⟨hfirst, hrest⟩ := pairwise_cons.1 hws
    have hlt := hfirst b mem_cons_self
    have hle := ih hrest (forall_mem_cons.1 hbound).2
    rw [length_cons]
    omega

/-- What is left and what was spent are no more than what was issued. -/
theorem Kept.units (hl : l.Kept weight made tracked) (htracked : tracked h) {e : Nat × κ × Nat}
    (hone : l.issuedOf h = [e]) : weight l.store h + (l.spentOf h).length ≤ e.2.2 := by
  obtain ⟨hpairwise, hbound⟩ := hl.descends h e htracked hone
  have hle := add_length_le hpairwise hbound
  rwa [lefts, length_map] at hle

/-- What was issued by calls with one number was issued once. -/
theorem Kept.issuedOf_cases (hl : l.Kept weight made tracked)
    (hsame : ∀ n n' k k', (n, h, k) ∈ l.issued → (n', h, k') ∈ l.issued → n = n') :
    l.issuedOf h = [] ∨ ∃ e, l.issuedOf h = [e] := by
  have honce : (l.issuedOf h).Pairwise fun e e' => e.1 ≠ e'.1 := hl.once.filter _
  have hmem : ∀ e ∈ l.issuedOf h, (e.1, h, e.2.2) ∈ l.issued := by
    intro e he
    obtain ⟨_, hh⟩ := mem_filter.1 he
    rw [decide_eq_true_eq] at hh
    rwa [← hh]
  cases hcases : l.issuedOf h with
  | nil => exact .inl rfl
  | cons e rest =>
    cases rest with
    | nil => exact .inr ⟨e, rfl⟩
    | cons e' =>
      -- Two entries would be by two calls.
      rw [hcases] at honce hmem
      refine absurd (hsame e.1 e'.1 e.2.2 e'.2.2 (hmem e mem_cons_self)
        (hmem e' (mem_cons_of_mem _ mem_cons_self))) ?_
      exact (pairwise_cons.1 honce).1 e' mem_cons_self

/-! ## Rely and guarantee -/

variable (weight made tracked) in
/-- What call `n` relies on. -/
structure Follows (n : Nat) (l l' : Ledger τ κ) : Prop where
  kept : l.Kept weight made tracked → l'.Kept weight made tracked
  own : ∀ h k, (n, h, k) ∈ l'.issued → (n, h, k) ∈ l.issued
  ownSpent : ∀ h w, (n, h, w) ∈ l'.spent → (n, h, w) ∈ l.spent
  spent : l.spent <:+ l'.spent

variable (weight made tracked) in
/-- What an action of call `n` guarantees. -/
structure Acts (n : Nat) (l l' : Ledger τ κ) : Prop where
  kept : l.Kept weight made tracked → l'.Kept weight made tracked
  issued : ∀ m h k, m ≠ n → (m, h, k) ∈ l'.issued → (m, h, k) ∈ l.issued
  otherSpent : ∀ m h w, m ≠ n → (m, h, w) ∈ l'.spent → (m, h, w) ∈ l.spent
  spent : l.spent <:+ l'.spent

theorem Acts.follows {l l' : Ledger τ κ} (h : Acts weight made tracked n l l') :
    ∀ m, m ≠ n → Follows weight made tracked m l l' :=
  fun m hm => ⟨h.kept, fun h' k => h.issued m h' k hm, fun h' w => h.otherSpent m h' w hm, h.spent⟩

theorem follows_refl (n : Nat) (l : Ledger τ κ) : Follows weight made tracked n l l :=
  ⟨fun h => h, fun _ _ h => h, fun _ _ h => h, suffix_refl _⟩

theorem Follows.trans {l l' l'' : Ledger τ κ} (h : Follows weight made tracked n l l')
    (h' : Follows weight made tracked n l' l'') : Follows weight made tracked n l l'' :=
  ⟨fun hl => h'.kept (h.kept hl), fun k w hk => h.own k w (h'.own k w hk),
    fun k w hk => h.ownSpent k w (h'.ownSpent k w hk), h.spent.trans h'.spent⟩

/-- Components whose surroundings leave the ledger alone. -/
theorem relies_follows {ι α : Type} (c : Component (Ledger τ κ) ι α)
    (hmoves : ∀ l l', ¬ c.moves l l') : Relies c (Follows weight made tracked) where
  refl := follows_refl
  trans _ _ _ _ h h' := h.trans h'
  moves _ l l' h := absurd h (hmoves l l')

/-- A call before it starts: it is the operation of its number, and is not in the ledger. -/
structure Unentered {ι : Type} (ops : Nat → ι) (n : Nat) (op : ι) (l : Ledger τ κ) : Prop where
  op : ops n = op
  issued : ∀ h k, (n, h, k) ∉ l.issued
  spent : ∀ h w, (n, h, w) ∉ l.spent

/-- Components on a ledger that restarts nothing: results that last as long as what was spent
stays in the ledger. -/
theorem sound_ledger {ι α : Type} {c : Component (Ledger τ κ) ι α} {ops : Nat → ι}
    {Q : Nat → ι → α → Ledger τ κ → Prop} (hmoves : ∀ l l', ¬ c.moves l l')
    (hrestarts : ∀ l l', ¬ c.restarts l l')
    (hlasting : ∀ n op a {l l' : Ledger τ κ}, l.spent <:+ l'.spent → Q n op a l → Q n op a l')
    (hstart : ∀ n op l, ops n = op → (∀ h k, (n, h, k) ∉ l.issued) →
      Valid c (Follows weight made tracked) n (c.program n op) l (Q n op)) :
    Sound c (Follows weight made tracked) (Kept weight made tracked) (Unentered ops) Q where
  relies := relies_follows c hmoves
  keeps _ _ _ hs hl := hs.kept hl
  keeps_restart h := absurd h (hrestarts _ _)
  untouched _ _ _ _ hs h := ⟨h.op, fun k w hk => h.issued k w (hs.own k w hk),
    fun k w hk => h.spent k w (hs.ownSpent k w hk)⟩
  untouched_restart _ _ _ _ h := absurd h (hrestarts _ _)
  lasting n op a _ _ hs := hlasting n op a hs.spent
  lasting_restart _ _ _ _ _ h := absurd h (hrestarts _ _)
  start n op l _ h := hstart n op l h.op h.issued

/-- A new ledger, where there is nothing of the tracked resources. -/
theorem kept_new (hnone : ∀ h, tracked h → weight store h = 0) :
    Kept weight made tracked (⟨store, [], []⟩ : Ledger τ κ) where
  made _ _ _ h := by cases h
  once := .nil
  before h htracked _ := ⟨hnone h htracked, rfl⟩
  descends h e _ hone := by cases hone

end Kept

/-! ## Runs -/

section Run

variable {ι α : Type} {c : Component (Ledger τ κ) ι α} {weight : τ → κ → Nat}
  (amount : ι → Option (κ × Nat))

/-- Calls issue what their operation says. -/
def Made (ops : Nat → ι) (n : Nat) (h : κ) (k : Nat) : Prop := amount (ops n) = some (h, k)

/-- At most one call issues the resource. -/
def IssuedOnce (h : κ) (events : List (Event ι α)) : Prop :=
  ∀ n n' op op' k k', .called n op ∈ events → .called n' op' ∈ events →
    amount op = some (h, k) → amount op' = some (h, k') → n = n'

variable {amount} {h : κ} {store : τ} {events : List (Event ι α)}
  {sys : System (Ledger τ κ) ι α} {Q : Nat → ι → α → Ledger τ κ → Prop} {ops : Nat → ι}

omit [DecidableEq κ] in
theorem issuedOnce_of_only (m : Nat)
    (hm : ∀ n op k, .called n op ∈ events → amount op = some (h, k) → n = m) :
    IssuedOnce amount h events := by
  intro n n' op op' k k' hn hn' hop hop'
  rw [hm n op k hn hop, hm n' op' k' hn' hop']

/-- A run from a new ledger. -/
theorem reached
    (hsound : Sound c (Follows weight (Made amount ops) (· = h))
      (Kept weight (Made amount ops) (· = h))
      (Unentered ops) Q)
    (hnone : weight store h = 0) (hrun : Run c ⟨⟨store, [], []⟩, fun _ => none, 0⟩ events sys)
    (hops : ∀ n op, .called n op ∈ events → ops n = op) :
    sys.shared.Kept weight (Made amount ops) (· = h) ∧
      (∀ n, sys.fresh ≤ n → ∀ h w, (n, h, w) ∉ sys.shared.spent) ∧
      InFlight c (Follows weight (Made amount ops) (· = h)) (fun _ _ _ _ => True) sys ∧
      ∀ n op a, .returned n op a ∈ events → Q n op a sys.shared := by
  have hstart : ∀ n op, ops n = op → Unentered ops n op (⟨store, [], []⟩ : Ledger τ κ) := by
    intro n op hop
    exact ⟨hop, fun _ _ h => not_mem_nil h, fun _ _ h => not_mem_nil h⟩
  obtain ⟨hkept, hlater, hflight, hreturned⟩ := hrun.returned hsound numbered_none
    (kept_new fun h' hh => by rw [hh]; exact hnone) (fun n op hn => hstart n op (hops n op hn))
    inFlight_none
  refine ⟨hkept, fun n hn => (hlater n _ hn (hstart n _ rfl)).spent,
    hflight.mono fun _ _ _ _ _ => trivial, ?_⟩
  exact fun n op a hn => (hreturned n op a (Nat.zero_le n) hn).1

/-- A resource that one call issues is issued once, as that call says, or not yet. -/
theorem Kept.issuedOf_once {l : Ledger τ κ} (hl : l.Kept weight (Made amount ops) (· = h))
    (honce : IssuedOnce amount h events) {other : ι} (hother : amount other = none)
    (hcalled : ∀ n, ops n = other ∨ .called n (ops n) ∈ events) :
    l.issuedOf h = [] ∨ ∃ n op k, l.issuedOf h = [(n, h, k)] ∧ .called n op ∈ events ∧
      amount op = some (h, k) := by
  have hissue : ∀ n k, (n, h, k) ∈ l.issued → .called n (ops n) ∈ events ∧
      amount (ops n) = some (h, k) := by
    intro n k hn
    have hmade : amount (ops n) = some (h, k) := hl.made n h k hn
    rcases hcalled n with heq | hcall
    · rw [heq, hother] at hmade
      cases hmade
    · exact ⟨hcall, hmade⟩
  have hsame : ∀ n n' k k', (n, h, k) ∈ l.issued → (n', h, k') ∈ l.issued → n = n' := by
    intro n n' k k' hn hn'
    exact honce n n' _ _ k k' (hissue n k hn).1 (hissue n' k' hn').1 (hissue n k hn).2
      (hissue n' k' hn').2
  rcases hl.issuedOf_cases hsame with hnone | ⟨e, hone⟩
  · exact .inl hnone
  obtain ⟨n, h', k⟩ := e
  have hmem : (n, h', k) ∈ l.issuedOf h := by
    rw [hone]
    exact mem_cons_self
  obtain ⟨hissued, hh⟩ := mem_filter.1 hmem
  rw [decide_eq_true_eq] at hh
  subst hh
  obtain ⟨hcall, hamount⟩ := hissue n k hissued
  exact .inr ⟨n, ops n, k, hone, hcall, hamount⟩

/-- No more calls return an answer that needs an entry than there are entries. -/
theorem countP_le_spentOf (hrun : Run c ⟨⟨store, [], []⟩, fun _ => none, 0⟩ events sys)
    {p : Event ι α → Bool} (hp : ∀ e ∈ events, p e = true →
      ∃ n w, e.returnNumber = some n ∧ (n, h, w) ∈ sys.shared.spent) :
    events.countP p ≤ (sys.shared.spentOf h).length := by
  have hentry : ∀ e ∈ events, p e = true →
      ∃ n ∈ (sys.shared.spentOf h).map Prod.fst, e.returnNumber = some n := by
    intro e he hpe
    obtain ⟨n, w, hn, hw⟩ := hp e he hpe
    refine ⟨n, mem_map.2 ⟨(n, h, w), ?_, rfl⟩, hn⟩
    exact mem_filter.2 ⟨hw, decide_eq_true rfl⟩
  have hcount := hrun.countP_le numbered_none hentry
  rwa [length_map] at hcount

end Run

end Ledger

end Astrid.Calls
