import Astrid.Capability.Revoked

/-!
# Single-use tokens

`mark_used` checks, stores and remembers an id under one lock, so among all calls of a run, and
across restarts, at most one uses an id. A lookup by capability skips used ids, finds only
tokens of the principal that grant what is asked, and finds nothing for a principal that is
retiring. The process does not count an id as used for a call that fails. But the key-value store
may have taken the use although it reported a failure, and then the next process loads it:
`failed_use_counts`.
-/

namespace Astrid.Capability

open Std Calls List

variable {globs : Globset}

/-- A call that has used a single-use token, or marked an id as used. -/
def UsesUp (id : TokenId) : Op globs → Answer globs → Prop
  | .useToken id', .used (.ok token) => id' = id ∧ token.singleUse = true
  | .markUsed id', .done (.ok _) => id' = id
  | _, _ => False

/-- A call whose lookup found this token. -/
def Answer.Finds (token : CapabilityToken globs) : Answer globs → Prop
  | .found (some token') => token' = token
  | .authorized (some token') => token' = token
  | _ => False

/-- A call that failed with an error. -/
def Answer.Fails : Answer globs → Prop
  | .done (.error _) => True
  | .used (.error _) => True
  | _ => False

/-- Whose tokens an operation looks for, and to do what. -/
def Op.Seeks (principal : PrincipalId) (resource : Text) (permission : Permission) :
    Op globs → Prop
  | .findCapability p r perm => p = principal ∧ r = resource ∧ perm = permission
  | .hasCapability p r perm => p = principal ∧ r = resource ∧ perm = permission
  | .check _ p r perm => p = principal ∧ r = resource ∧ perm = permission
  | _ => False

/-- The store without any restriction on its steps. -/
abbrev anyStore (verify : Verify) : Component (StoreState globs) (Op globs) (Answer globs) :=
  store verify fun _ _ => True

theorem admissible_true : Admissible fun _ _ : StoreState globs => True :=
  ⟨fun _ => trivial, fun _ _ _ => trivial, fun _ => trivial⟩

section Outcomes

variable {origin : Origin globs} {E : StoreState globs → StoreState globs → Prop} {n : Nat}
  {op : Op globs} {a : Answer globs} {start s : StoreState globs}

/-- A use is in the log. -/
theorem Outcomes.logged {id : TokenId} (h : Outcomes origin E n start op a s)
    (huses : UsesUp id op a) : (n, id) ∈ s.uses ∧ id ∈ s.used := by
  unfold UsesUp at huses
  split at huses
  next id' token =>
    obtain ⟨rfl, hsingle⟩ := huses
    exact h.2.2.2 hsingle
  next id' _ =>
    subst huses
    exact h.2
  next => cases huses

/-- A failure leaves no trace. -/
theorem Outcomes.untraced (h : Outcomes origin E n start op a s)
    (hstart : ∀ id, (n, id) ∉ start.uses) (hfails : a.Fails) : ∀ id, (n, id) ∉ s.uses := by
  have hsince : Since origin E n start s := by
    unfold Answer.Fails at hfails
    split at hfails
    next e =>
      cases op with
      | revoke => exact h.1
      | _ => first | exact h | exact h.elim
    next e =>
      cases op with
      | useToken => exact h
      | _ => exact h.elim
    next => cases hfails
  exact fun id hid => hstart id (hsince.own id hid)

variable {token : CapabilityToken globs}

/-- What a lookup found is a token of the principal, which was not retiring at some point. -/
theorem Outcomes.found {principal : PrincipalId} {resource : Text} {permission : Permission}
    (h : Outcomes origin E n start op a s) (hseeks : op.Seeks principal resource permission)
    (hfinds : a.Finds token) :
    Found origin E start principal resource permission token ∧
      ∃ s', Grows origin E start s' ∧ principal ∉ s'.retiring := by
  unfold Op.Seeks at hseeks
  split at hseeks
  next =>
    obtain ⟨rfl, rfl, rfl⟩ := hseeks
    cases a with
    | found result =>
      cases result with
      | none => cases hfinds
      | some =>
        cases hfinds
        exact h.2 _ rfl
    | _ => exact h.elim
  next =>
    obtain ⟨rfl, rfl, rfl⟩ := hseeks
    cases a with
    | found result =>
      cases result with
      | none => cases hfinds
      | some =>
        cases hfinds
        exact h.2 _ rfl
    | _ => exact h.elim
  next =>
    obtain ⟨rfl, rfl, rfl⟩ := hseeks
    cases a with
    | authorized result =>
      cases result with
      | none => cases hfinds
      | some =>
        cases hfinds
        exact h.2 _ rfl
    | _ => exact h.elim
  next => cases hseeks

/-- Only lookups find tokens. -/
theorem Outcomes.seeks (h : Outcomes origin E n start op a s) (hfinds : a.Finds token) :
    ∃ principal resource permission, op.Seeks principal resource permission := by
  cases op with
  | findCapability | hasCapability | check => exact ⟨_, _, _, rfl, rfl, rfl⟩
  | _ =>
    cases a with
    | found | authorized => exact h.elim
    | _ => cases hfinds

end Outcomes

/-! ## What lasts along a run -/

section Run

variable {origin : Origin globs} {verify : Verify}

/-- What is known of a call from when it returned on. -/
structure Returned (n : Nat) (op : Op globs) (a : Answer globs) (s : StoreState globs) : Prop where
  logged : ∀ id, UsesUp id op a → (n, id) ∈ s.uses ∧ id ∈ s.used
  untraced : a.Fails → ∀ id, (n, id) ∉ s.uses
  own : ∀ principal resource permission token, op.Seeks principal resource permission →
    a.Finds token → token.principal = principal ∧ token.resource.matches resource = true ∧
      permission ∈ token.permissions

/-- An id in the log is used after a restart, since it was stored. -/
theorem StoreInv.used_restart {s s' : StoreState globs} (h : StoreInv origin s)
    (hs : Restarts s s') {n : Nat} {id : TokenId} (huse : (n, id) ∈ s.uses) : id ∈ s'.used := by
  have hinv := h.restart hs
  obtain ⟨_, _, rfl⟩ := hs
  exact hinv.settled rfl n id huse

theorem sound_returned :
    Sound (anyStore verify) (Relied origin fun _ _ => True) (StoreInv origin) (Unstarted origin)
      Returned := by
  refine sound admissible_true (fun h => h) (fun hs h => hs.inv h) (fun hs h => h.restart hs)
    ?_ ?_ ?_
  · intro n op a s s' hs h
    refine ⟨fun id huses => ?_, fun hfails id hid => ?_, h.own⟩
    · obtain ⟨hlog, hused⟩ := h.logged id huses
      exact ⟨hs.grows.uses _ hlog, hs.grows.used _ hused⟩
    · exact h.untraced hfails id (hs.own id hid)
  · intro n op a s s' hs hinv h
    have huses : s'.uses = s.uses := by
      obtain ⟨_, _, rfl⟩ := hs
      rfl
    refine ⟨fun id hid => ?_, fun hfails => ?_, h.own⟩
    · rw [huses]
      exact ⟨(h.logged id hid).1, hinv.used_restart hs (h.logged id hid).1⟩
    · rw [huses]
      exact h.untraced hfails
  · intro n op a s s' _ hunused houtcome
    refine ⟨fun id huses => houtcome.logged huses, houtcome.untraced hunused, ?_⟩
    intro principal resource permission token hseeks hfinds
    have hfound := (houtcome.found hseeks hfinds).1
    have hgrants := hfound.grants
    unfold CapabilityToken.grants at hgrants
    rw [Bool.and_eq_true] at hgrants
    exact ⟨hfound.principal, hgrants.1, contains_iff_mem.1 hgrants.2⟩

/-- An id that a call has used, and that later lookups skip. -/
def UsedUp (origin : Origin globs) (id : TokenId) (s : StoreState globs) : Prop :=
  StoreInv origin s ∧ id ∈ s.used ∧ ∃ n, (n, id) ∈ s.uses

theorem sound_usedUp (id : TokenId) :
    Sound (anyStore verify) (Relied origin fun _ _ => True) (UsedUp origin id) (Unstarted origin)
      fun _ _ a _ => ∀ token, a.Finds token → token.singleUse = true → token.id ≠ id := by
  refine sound admissible_true (fun h => h.1) ?_ ?_ (fun _ _ _ _ _ _ h => h)
    (fun _ _ _ _ _ _ _ h => h) ?_
  · intro s s' hs h
    obtain ⟨hinv, hused, n, huse⟩ := h
    exact ⟨hs.inv hinv, hs.used id hused, n, hs.uses _ huse⟩
  · intro s s' hs h
    obtain ⟨hinv, _, n, huse⟩ := h
    refine ⟨hinv.restart hs, hinv.used_restart hs huse, n, ?_⟩
    obtain ⟨_, _, rfl⟩ := hs
    exact huse
  · intro n op a s s' hJ _ houtcome token hfinds hsingle hid
    obtain ⟨_, _, _, hseeks⟩ := houtcome.seeks hfinds
    have hunused := (houtcome.found hseeks hfinds).1.unused hsingle
    rw [hid] at hunused
    exact hunused hJ.2.1

/-- Steps that leave the principal retiring. -/
def KeepsRetiring (principal : PrincipalId) (s s' : StoreState globs) : Prop :=
  principal ∈ s.retiring → principal ∈ s'.retiring

theorem admissible_keepsRetiring (principal : PrincipalId) :
    Admissible (KeepsRetiring principal : StoreState globs → StoreState globs → Prop) where
  refl _ h := h
  trans _ h h' hp := h' (h hp)
  ticks h hp := by
    obtain ⟨_, rfl⟩ := h
    exact hp

/-- The store while a principal is retiring. -/
abbrev retiringStore (verify : Verify) (principal : PrincipalId) :
    Component (StoreState globs) (Op globs) (Answer globs) :=
  (anyStore verify).during fun s => principal ∈ s.retiring

theorem sound_retiring (principal : PrincipalId) :
    Sound (retiringStore verify principal) (Relied origin (KeepsRetiring principal))
      (fun s => StoreInv origin s ∧ principal ∈ s.retiring) (Unstarted origin)
      fun _ op a _ => ∀ resource permission token, op.Seeks principal resource permission →
        ¬ a.Finds token := by
  have hE : Admissible (KeepsRetiring principal : StoreState globs → StoreState globs → Prop) :=
    admissible_keepsRetiring principal
  have hr : Relies (store verify (KeepsRetiring principal))
      (Relied origin (KeepsRetiring principal)) := relies verify hE
  refine ⟨⟨hr.refl, hr.trans, fun n _ _ hmoves => hr.moves n hmoves.1⟩, ?_, ?_, ?_, ?_,
    fun _ _ _ _ _ _ h => h, fun _ _ _ _ _ _ _ h => h, ?_⟩
  · exact fun m s s' hs h => ⟨hs.grows.inv h.1, hs.grows.extra h.2⟩
  · exact fun hs h => ⟨h.1.restart hs.1, hs.2⟩
  · exact fun n op s s' hs h => ⟨h.1, fun id hid => h.2 id (hs.own id hid)⟩
  · intro n op s s' hs h
    obtain ⟨⟨_, _, rfl⟩, _⟩ := hs
    exact h
  · intro n op s hJ hunstarted
    have hvalid : Valid (store verify (KeepsRetiring principal))
        (Relied origin (KeepsRetiring principal)) n (program verify n op) s _ :=
      program_valid hE hJ.1 hunstarted.1
    have hduring : Valid (retiringStore verify principal) (Relied origin (KeepsRetiring principal))
        n (program verify n op) s _ :=
      hvalid.weaken (fun _ _ h => h) (fun _ _ h _ => h.2) fun _ _ _ _ h => h
    refine hduring.mono ?_
    intro a s' houtcome resource permission token hseeks hfinds
    obtain ⟨_, _, hs₁, hnot⟩ := houtcome.found hseeks hfinds
    exact hnot (hs₁.extra hJ.2)

end Run

/-! ## Runs -/

/-- What holds of a run of the store, with the key-value store it was opened on. -/
structure SingleUse (verify : Verify) (kv : Option Kv)
    (events : List (Event (Op globs) (Answer globs)))
    (sys : System (StoreState globs) (Op globs) (Answer globs)) : Prop where
  once : ∀ id before after n op a, events = before ++ .returned n op a :: after →
    UsesUp id op a → ∀ m op' a', .returned m op' a' ∈ after → ¬ UsesUp id op' a'
  skipped : ∀ id before after n op a, events = before ++ .returned n op a :: after →
    UsesUp id op a → ∀ m op' a' token, .called m op' ∈ after → .returned m op' a' ∈ after →
      a'.Finds token → token.singleUse = true → token.id ≠ id
  own : ∀ n op a principal resource permission token, .returned n op a ∈ events →
    op.Seeks principal resource permission → a.Finds token → token.principal = principal ∧
      token.resource.matches resource = true ∧ permission ∈ token.permissions
  fenced : ∀ principal, principal ∈ sys.shared.retiring → ∀ later sys',
    Run (retiringStore verify principal) sys later sys' →
    ∀ m op a resource permission token, .called m op ∈ later → .returned m op a ∈ later →
      op.Seeks principal resource permission → ¬ a.Finds token
  unused : ∀ id ∈ sys.shared.used, id ∈ sys.shared.loaded ∨
    ∃ n op, .called n op ∈ events ∧ op.Uses id ∧ ∀ a, a.Fails → .returned n op a ∉ events
  stored : ∀ id, id ∈ sys.shared.loaded ∨ KvUsed sys.shared id → id ∈ (kv.map Kv.used).getD ∅ ∨
    ∃ n op, .called n op ∈ events ∧ op.Uses id ∧ (n, id) ∈ sys.shared.taken

section Start

variable {verify : Verify} {kv : Option Kv} {now : Int}
  {events : List (Event (Op globs) (Answer globs))}
  {sys : System (StoreState globs) (Op globs) (Answer globs)} {ops : Nat → Op globs} {op : Op globs}

theorem unstarted_opened {k : Nat} (hop : ops k = op) :
    Unstarted ⟨(kv.map Kv.used).getD ∅, ops⟩ k op (opened globs kv now) :=
  ⟨hop, fun id hid => by cases hid⟩

/-- What is known at the end of a run of the store. -/
theorem reached (hkv : ∀ kv', kv = some kv' → WellKeyed kv')
    (h : Run (anyStore verify) ⟨opened globs kv now, fun _ => none, 0⟩ events sys)
    (hops : ∀ n op, .called n op ∈ events → ops n = op) :
    StoreInv ⟨(kv.map Kv.used).getD ∅, ops⟩ sys.shared ∧ (∀ n op, sys.fresh ≤ n → ops n = op →
        Unstarted ⟨(kv.map Kv.used).getD ∅, ops⟩ n op sys.shared) ∧
      InFlight (anyStore verify)
        (Relied ⟨(kv.map Kv.used).getD ∅, ops⟩ fun _ _ => True) (fun _ _ _ _ => True) sys ∧
      ∀ n op a, .returned n op a ∈ events →
        Returned n op a sys.shared ∧ sys.pending n = none ∧ n < sys.fresh := by
  obtain ⟨hinv, hlater, hflight, hreturned⟩ := h.returned sound_returned numbered_none
    (storeInv_opened hkv now ops) (fun n op hn => unstarted_opened (hops n op hn)) inFlight_none
  refine ⟨hinv, fun n op hn hop => hlater n op hn (unstarted_opened hop),
    hflight.mono fun _ _ _ _ _ => trivial, ?_⟩
  exact fun n op a => hreturned n op a (Nat.zero_le n)

variable {ι α : Type} {before after es : List (Event ι α)} {last e : Event ι α}

/-- The calls of the first part of a run are calls of the run. -/
theorem mem_of_front (hes : es = before ++ last :: after) (he : e ∈ before ++ [last]) : e ∈ es := by
  rw [hes]
  rcases mem_append.1 he with hold | hnew
  · exact mem_append_left _ hold
  · rw [mem_singleton.1 hnew]
    exact mem_append_right _ mem_cons_self

theorem mem_of_back (hes : es = before ++ last :: after) (he : e ∈ after) : e ∈ es := by
  rw [hes]
  exact mem_append_right _ (mem_cons_of_mem _ he)

variable {id : TokenId} {m : Nat} {a : Answer globs} {n : Nat}
  {before after : List (Event (Op globs) (Answer globs))} {op' : Op globs} {a' : Answer globs}

theorem once (hkv : ∀ kv', kv = some kv' → WellKeyed kv')
    (h : Run (anyStore verify) ⟨opened globs kv now, fun _ => none, 0⟩ events sys)
    (hevents : events = before ++ .returned n op a :: after) (huses : UsesUp id op a)
    (hreturned : .returned m op' a' ∈ after) : ¬ UsesUp id op' a' := by
  intro huses'
  obtain ⟨_, hops, _⟩ := h.exists_ops .clearSession
  obtain ⟨_, hfront, hback⟩ := h.split hevents
  -- Both uses are in the log at the end, so they are by one call, which returned only once.
  obtain ⟨hinv, _, _, hreturns⟩ := reached hkv h hops
  have hfirst := hreturns n op a (by rw [hevents]; exact mem_append_right _ mem_cons_self)
  have hsecond := hreturns m op' a' (mem_of_back hevents hreturned)
  have hsame : n = m := hinv.unique n m id (hfirst.1.logged id huses).1
    (hsecond.1.logged id huses').1
  subst hsame
  obtain ⟨_, _, _, hreturns'⟩ := reached hkv hfront fun k op hk =>
    hops k op (mem_of_front hevents hk)
  obtain ⟨_, hgone, hlt⟩ := hreturns' n op a (mem_append_right _ (mem_singleton_self _))
  exact (hback.gone hlt hgone).2 op' a' hreturned

variable {token : CapabilityToken globs}

section

variable (hkv : ∀ kv', kv = some kv' → WellKeyed kv')
  (h : Run (anyStore verify) ⟨opened globs kv now, fun _ => none, 0⟩ events sys)

include hkv h

theorem skipped (hevents : events = before ++ .returned n op a :: after) (huses : UsesUp id op a)
    (hcalled : .called m op' ∈ after) (hreturned : .returned m op' a' ∈ after)
    (hfinds : a'.Finds token) (hsingle : token.singleUse = true) : token.id ≠ id := by
  obtain ⟨_, hops, _⟩ := h.exists_ops .clearSession
  obtain ⟨_, hfront, hback⟩ := h.split hevents
  obtain ⟨hinv, hlater, hflight, hreturns⟩ := reached hkv hfront fun k op hk =>
    hops k op (mem_of_front hevents hk)
  obtain ⟨hreturns, _⟩ := hreturns n op a (mem_append_right _ (mem_singleton_self _))
  obtain ⟨hlog, hused⟩ := hreturns.logged id huses
  obtain ⟨_, _, _, hresults⟩ := hback.returned (sound_usedUp id) (hfront.numbered numbered_none)
    ⟨hinv, hused, n, hlog⟩
    (fun k op hk => hlater k op (hback.called_fresh hk) (hops k op (mem_of_back hevents hk)))
    hflight
  exact (hresults m op' a' (hback.called_fresh hcalled) hreturned).1 token hfinds hsingle

theorem fenced {principal : PrincipalId} (hretiring : principal ∈ sys.shared.retiring)
    {later : List (Event (Op globs) (Answer globs))}
    {sys' : System (StoreState globs) (Op globs) (Answer globs)}
    (hrun : Run (retiringStore verify principal) sys later sys') (hcalled : .called m op ∈ later)
    (hreturned : .returned m op a ∈ later) {resource : Text} {permission : Permission}
    (hseeks : op.Seeks principal resource permission) : ¬ a.Finds token := by
  obtain ⟨ops₁, hops₁, _⟩ := h.exists_ops .clearSession
  obtain ⟨ops₂, hops₂, _⟩ := hrun.exists_ops .clearSession
  -- The numbers of the two runs are apart.
  obtain ⟨ops, hops, hops'⟩ : ∃ ops : Nat → Op globs,
      (∀ k op, .called k op ∈ events → ops k = op) ∧ ∀ k op, .called k op ∈ later → ops k = op := by
    refine ⟨fun k => if k < sys.fresh then ops₁ k else ops₂ k, fun k op hk => ?_, fun k op hk => ?_⟩
    · exact (if_pos (h.called_lt hk)).trans (hops₁ k op hk)
    · exact (if_neg (Nat.not_lt.2 (hrun.called_fresh hk))).trans (hops₂ k op hk)
  obtain ⟨hinv, hlater, hflight, _⟩ := reached hkv h hops
  have hflight' : InFlight (retiringStore verify principal)
      (Relied ⟨(kv.map Kv.used).getD ∅, ops⟩ (KeepsRetiring principal)) (fun _ _ _ _ => True)
      sys := by
    intro k op p hp
    refine (hflight k op p hp).weaken (fun s s' hs => ?_) (fun _ _ _ => trivial) ?_
    · exact ⟨{ hs.grows with extra := trivial }, hs.own, hs.lock⟩
    · intro m s s' hallowed hs
      exact ⟨{ hs.grows with extra := fun _ => hallowed.2 }, hs.own, hs.lock⟩
  obtain ⟨_, _, _, hresults⟩ := hrun.returned (sound_retiring principal) (h.numbered numbered_none)
    ⟨hinv, hretiring⟩ (fun k op hk => hlater k op (hrun.called_fresh hk) (hops' k op hk)) hflight'
  exact (hresults m op a (hrun.called_fresh hcalled) hreturned).1 resource permission token hseeks

/-- The call that has used an id, or whose use the key-value store has taken. -/
theorem exists_call {ops : Nat → Op globs} (hops : ∀ n op, .called n op ∈ events → ops n = op)
    (hcalls : ∀ n, ops n = .clearSession ∨ .called n (ops n) ∈ events)
    (hmade : (n, id) ∈ sys.shared.uses ∨ (n, id) ∈ sys.shared.taken) :
    .called n (ops n) ∈ events ∧ (ops n).Uses id := by
  obtain ⟨hinv, _⟩ := reached hkv h hops
  have hop : (ops n).Uses id := hinv.made n id hmade
  rcases hcalls n with hother | hcalled
  · -- A number without a call has no use.
    rw [hother] at hop
    exact hop.elim
  · exact ⟨hcalled, hop⟩

theorem unused (hused : id ∈ sys.shared.used) :
    id ∈ sys.shared.loaded ∨
      ∃ n op, .called n op ∈ events ∧ op.Uses id ∧ ∀ a, a.Fails → .returned n op a ∉ events := by
  obtain ⟨ops, hops, hcalls⟩ := h.exists_ops .clearSession
  obtain ⟨hinv, _, _, hreturns⟩ := reached hkv h hops
  refine (hinv.sourced id hused).imp_right fun ⟨n, huse⟩ => ?_
  obtain ⟨hcalled, hop⟩ := exists_call hkv h hops hcalls (.inl huse)
  refine ⟨n, ops n, hcalled, hop, fun a hfails hreturned => ?_⟩
  exact (hreturns n (ops n) a hreturned).1.untraced hfails id huse

theorem stored (hused : id ∈ sys.shared.loaded ∨ KvUsed sys.shared id) :
    id ∈ (kv.map Kv.used).getD ∅ ∨
      ∃ n op, .called n op ∈ events ∧ op.Uses id ∧ (n, id) ∈ sys.shared.taken := by
  obtain ⟨ops, hops, hcalls⟩ := h.exists_ops .clearSession
  obtain ⟨hinv, _⟩ := reached hkv h hops
  refine (hinv.takes id hused).imp_right fun ⟨n, htaken⟩ => ?_
  obtain ⟨hcalled, hop⟩ := exists_call hkv h hops hcalls (.inr htaken)
  exact ⟨n, ops n, hcalled, hop, htaken⟩

end

end Start

/-- In every run of the store, a single-use token is used at most once and only by its
principal. -/
theorem single_use (verify : Verify) {kv : Option Kv}
    (hkv : ∀ kv', kv = some kv' → WellKeyed kv') (now : Int)
    {events : List (Event (Op globs) (Answer globs))}
    {sys : System (StoreState globs) (Op globs) (Answer globs)}
    (h : Run (anyStore verify) ⟨opened globs kv now, fun _ => none, 0⟩ events sys) :
    SingleUse verify kv events sys where
  once _ _ _ _ _ _ hevents huses _ _ _ hreturned := once hkv h hevents huses hreturned
  skipped _ _ _ _ _ _ hevents huses _ _ _ _ hcalled hreturned hfinds hsingle :=
    skipped hkv h hevents huses hcalled hreturned hfinds hsingle
  own n op a principal resource permission token hreturned hseeks hfinds := by
    obtain ⟨_, hops, _⟩ := h.exists_ops .clearSession
    obtain ⟨_, _, _, hreturns⟩ := reached hkv h hops
    exact (hreturns n op a hreturned).1.own principal resource permission token hseeks hfinds
  fenced _ hretiring _ _ hrun _ _ _ _ _ _ hcalled hreturned hseeks :=
    fenced hkv h hretiring hrun hcalled hreturned hseeks
  unused _ hused := unused hkv h hused
  stored _ hused := stored hkv h hused

/-- A token is added and used, and its second use fails. -/
theorem single_use_twice :
    ∃ sys, Run (anyStore selfSigned) ⟨opened starGlobs (some emptyKv) 0, fun _ => none, 0⟩
      [.called 0 (.add (noteToken .persistent true)),
        .returned 0 (.add (noteToken .persistent true)) (.done (.ok ())),
        .called 1 (.useToken 7), .returned 1 (.useToken 7)
          (.used (.ok (noteToken .persistent true))),
        .called 2 (.useToken 7), .returned 2 (.useToken 7) (.used (.error (.tokenAlreadyUsed 7)))]
      sys ∧
      SingleUse selfSigned (some emptyKv)
        [.called 0 (.add (noteToken .persistent true)),
          .returned 0 (.add (noteToken .persistent true)) (.done (.ok ())), .called 1 (.useToken 7),
          .returned 1 (.useToken 7) (.used (.ok (noteToken .persistent true))),
          .called 2 (.useToken 7),
          .returned 2 (.useToken 7) (.used (.error (.tokenAlreadyUsed 7)))] sys := by
  refine Run.exists_of_events (fun _ => true) (fun _ _ _ => trivial)
    [(.add (noteToken .persistent true), [1, 1]), (.useToken 7, [0, 1, 1, 1]),
      (.useToken 7, [0, 1, 1])] rfl fun sys hrun => single_use selfSigned ?_ 0 hrun
  intro kv hkv
  cases hkv
  exact wellKeyed_emptyKv

/-- The key-value store takes a use and reports a failure. No call has used the token, but after
a restart it counts as used. -/
theorem failed_use_counts :
    ∃ sys, Run (anyStore selfSigned) ⟨opened starGlobs (some emptyKv) 0, fun _ => none, 0⟩
      [.called 0 (.add (noteToken .persistent true)),
        .returned 0 (.add (noteToken .persistent true)) (.done (.ok ())), .called 1 (.useToken 7),
        .returned 1 (.useToken 7) (.used storageFailed), .restarted, .called 2 (.useToken 7),
        .returned 2 (.useToken 7) (.used (.error (.tokenAlreadyUsed 7)))] sys := by
  have hfirst := Run.of_events (c := anyStore selfSigned) (fun _ => true) (fun _ _ _ => trivial)
    [(.add (noteToken .persistent true), [1, 1]), (.useToken 7, [0, 1, 1, 2])]
    (k := 0) (s := opened starGlobs (some emptyKv) 0) rfl
  have hrestart := hfirst.tail (.restart _ ⟨_, rfl, rfl⟩)
  exact ⟨_, hrestart.trans (Run.of_events (fun _ => true) (fun _ _ _ => trivial)
    [(.useToken 7, [0, 1, 1])] rfl)⟩

end Astrid.Capability
