import Astrid.Capability.Store

/-!
# What calls of the capability store rely on

Revoked and used ids only ever grow, in memory and in the key-value store; tokens stand under
their own ids; and whoever holds the lock of the used ids finds them unchanged. That is what
every call relies on (`Relied`) and what each of its actions guarantees. `Ensures` collects
the rules for programs that need no more: what such a call returns is stated about the state
it started in.
-/

namespace Astrid.Capability

open Std Calls

section Rely

variable {globs : Globset}

/-! ## The invariant -/

def KvUsed (s : StoreState globs) (id : TokenId) : Prop := ∃ kv, s.kv = some kv ∧ id ∈ kv.used

def KvRevoked (s : StoreState globs) (id : TokenId) : Prop :=
  ∃ kv, s.kv = some kv ∧ id ∈ kv.revoked

/-- No session has the token. -/
def NoSession (id : TokenId) (s : StoreState globs) : Prop :=
  ∀ (principal : PrincipalId) (tokens : FMap TokenId (CapabilityToken globs)),
    s.session[principal]? = some tokens → tokens[id]? = none

structure WellKeyed (kv : Kv) : Prop where
  tokens : ∀ (principal : PrincipalId) (id : TokenId) (stored : StoredToken),
    kv.tokens[(principal, id)]? = some stored → stored.id = id
  legacy : ∀ (id : TokenId) (stored : StoredToken), kv.legacy[id]? = some stored → stored.id = id

/-- Which ids were used before a run, and which operation each call of it is. -/
structure Origin (globs : Globset) where
  used : FSet TokenId
  ops : Nat → Op globs

/-- The operations that may use an id. -/
def Op.Uses (id : TokenId) : Op globs → Prop
  | .useToken id' => id' = id
  | .markUsed id' => id' = id
  | _ => False

/-- Tokens stand under their own ids, and each id is used by one call, which is stored before
it is remembered. What is remembered was loaded or used; what is stored was there from the
beginning or taken from a call that tried to use it. -/
structure StoreInv (origin : Origin globs) (s : StoreState globs) : Prop where
  session : ∀ (principal : PrincipalId) (tokens : FMap TokenId (CapabilityToken globs))
    (id : TokenId) (token : CapabilityToken globs), s.session[principal]? = some tokens →
    tokens[id]? = some token → token.id = id
  keyed : ∀ kv, s.kv = some kv → WellKeyed kv
  unique : ∀ n m id, (n, id) ∈ s.uses → (m, id) ∈ s.uses → n = m
  stored : ∀ n id, (n, id) ∈ s.uses → s.kv.isSome = true → KvUsed s id
  settled : s.usedLock = none → ∀ n id, (n, id) ∈ s.uses → id ∈ s.used
  sourced : ∀ id, id ∈ s.used → id ∈ s.loaded ∨ ∃ n, (n, id) ∈ s.uses
  takes : ∀ id, id ∈ s.loaded ∨ KvUsed s id → id ∈ origin.used ∨ ∃ n, (n, id) ∈ s.taken
  made : ∀ n id, (n, id) ∈ s.uses ∨ (n, id) ∈ s.taken → (origin.ops n).Uses id

/-! ## Rely -/

variable (origin : Origin globs) (E : StoreState globs → StoreState globs → Prop)

/-- What no step undoes; `E` is what else is known of the steps. -/
structure Grows (s s' : StoreState globs) : Prop where
  kv : s'.kv.isSome = s.kv.isSome
  used : ∀ id, id ∈ s.used → id ∈ s'.used
  kvUsed : ∀ id, KvUsed s id → KvUsed s' id
  revoked : ∀ id, id ∈ s.revoked → id ∈ s'.revoked
  kvRevoked : ∀ id, KvRevoked s id → KvRevoked s' id
  uses : ∀ use, use ∈ s.uses → use ∈ s'.uses
  inv : StoreInv origin s → StoreInv origin s'
  extra : E s s'

structure Relied (n : Nat) (s s' : StoreState globs) : Prop where
  grows : Grows origin E s s'
  own : ∀ id, (n, id) ∈ s'.uses → (n, id) ∈ s.uses
  lock : s.usedLock = some n → s'.usedLock = some n ∧ s'.used = s.used ∧ s'.uses = s.uses

/-- What is known of the steps holds across several of them, and of the clock. -/
structure Admissible : Prop where
  refl : ∀ s, E s s
  trans : ∀ {s s' s''}, (∀ id, id ∈ s.revoked → id ∈ s'.revoked) → E s s' → E s' s'' → E s s''
  ticks : ∀ {s s'}, Ticks s s' → E s s'

variable {origin E}

theorem Grows.refl (hE : Admissible E) (s : StoreState globs) : Grows origin E s s :=
  ⟨rfl, fun _ h => h, fun _ h => h, fun _ h => h, fun _ h => h, fun _ h => h, fun h => h, hE.refl s⟩

variable {s s' : StoreState globs}

theorem Grows.trans (hE : Admissible E) {s'' : StoreState globs} (h : Grows origin E s s')
    (h' : Grows origin E s' s'') : Grows origin E s s'' where
  kv := h'.kv.trans h.kv
  used id hid := h'.used id (h.used id hid)
  kvUsed id hid := h'.kvUsed id (h.kvUsed id hid)
  revoked id hid := h'.revoked id (h.revoked id hid)
  kvRevoked id hid := h'.kvRevoked id (h.kvRevoked id hid)
  uses use huse := h'.uses use (h.uses use huse)
  inv hinv := h'.inv (h.inv hinv)
  extra := hE.trans h.revoked h.extra h'.extra

/-- Steps that change neither tokens nor ids. -/
theorem grows_of_same {now : Int} {retiring : FSet PrincipalId} {readers : FSet Nat}
    (hextra : E s { s with now, retiring, readers }) :
    Grows origin E s { s with now, retiring, readers } :=
  ⟨rfl, fun _ h => h, fun _ h => h, fun _ h => h, fun _ h => h, fun _ h => h,
    fun h => ⟨h.session, h.keyed, h.unique, h.stored, h.settled, h.sourced, h.takes, h.made⟩,
      hextra⟩

/-- Session tokens come and go, under their own ids. -/
theorem grows_session {session : FMap PrincipalId (FMap TokenId (CapabilityToken globs))}
    (hid : StoreInv origin s → ∀ (principal : PrincipalId)
      (tokens : FMap TokenId (CapabilityToken globs)) (id : TokenId)
      (token : CapabilityToken globs), session[principal]? = some tokens →
      tokens[id]? = some token → token.id = id) (hextra : E s { s with session }) :
    Grows origin E s { s with session } :=
  ⟨rfl, fun _ h => h, fun _ h => h, fun _ h => h, fun _ h => h, fun _ h => h,
    fun h => ⟨hid h, h.keyed, h.unique, h.stored, h.settled, h.sourced, h.takes, h.made⟩, hextra⟩

/-- Operations of the key-value store that leave the used ids, add to the revoked ones, and
put tokens under their own ids. -/
structure KvKeeps (f : Kv → Kv) : Prop where
  used : ∀ kv, (f kv).used = kv.used
  revoked : ∀ kv id, id ∈ kv.revoked → id ∈ (f kv).revoked
  keyed : ∀ kv, WellKeyed kv → WellKeyed (f kv)

variable {f : Kv → Kv}

theorem grows_kv (hf : KvKeeps f) {kv : Kv} (hkv : s.kv = some kv)
    (hextra : E s { s with kv := some (f kv) }) :
    Grows origin E s { s with kv := some (f kv) } := by
  have hused : ∀ id, KvUsed s id ↔ KvUsed { s with kv := some (f kv) } id := by
    intro id
    constructor
    · rintro ⟨kv', hkv', hid⟩
      rw [hkv] at hkv'
      cases hkv'
      refine ⟨_, rfl, ?_⟩
      rw [hf.used]
      exact hid
    · rintro ⟨kv', hkv', hid⟩
      cases hkv'
      rw [hf.used] at hid
      exact ⟨kv, hkv, hid⟩
  refine ⟨by rw [hkv]; rfl, fun _ h => h, fun id h => (hused id).1 h, fun _ h => h, ?_,
    fun _ h => h, ?_, hextra⟩
  · rintro id ⟨kv', hkv', hid⟩
    rw [hkv] at hkv'
    cases hkv'
    exact ⟨_, rfl, hf.revoked _ _ hid⟩
  · intro h
    refine ⟨h.session, ?_, h.unique, fun n id huse _ => ?_, h.settled, h.sourced,
      fun id hid => ?_, h.made⟩
    · intro kv' hkv'
      cases hkv'
      exact hf.keyed _ (h.keyed kv hkv)
    · exact (hused id).1 (h.stored n id huse (by rw [hkv]; rfl))
    · rcases hid with hid | hid
      · exact h.takes id (.inl hid)
      · exact h.takes id (.inr ((hused id).2 hid))

/-- A step that leaves the used ids, their lock and the log alone. -/
theorem Grows.relied (h : Grows origin E s s') (hused : s'.used = s.used)
    (huses : s'.uses = s.uses) (hlock : s'.usedLock = s.usedLock) (n : Nat) :
    Relied origin E n s s' where
  grows := h
  own id hid := by rwa [huses] at hid
  lock hn := ⟨hlock.trans hn, hused, huses⟩

theorem relies (verify : Verify) (hE : Admissible E) :
    Relies (store verify E) (Relied origin E) where
  refl n s := (Grows.refl hE s).relied rfl rfl rfl n
  trans := by
    intro n s s' s'' h h'
    refine ⟨h.grows.trans hE h'.grows, fun id hid => h.own id (h'.own id hid), fun hlock => ?_⟩
    obtain ⟨hlock₁, hused₁, huses₁⟩ := h.lock hlock
    obtain ⟨hlock₂, hused₂, huses₂⟩ := h'.lock hlock₁
    exact ⟨hlock₂, hused₂.trans hused₁, huses₂.trans huses₁⟩
  moves := by
    intro n s s' h
    have hextra := hE.ticks h
    obtain ⟨now, rfl⟩ := h
    have hgrows : Grows origin E s { s with now } := grows_of_same hextra
    exact hgrows.relied rfl rfl rfl n

/-! ## Programs that only rely on growth -/

variable (origin E) in
/-- A state that call `n` may see after `start` while it has used no id. -/
structure Since (n : Nat) (start s : StoreState globs) : Prop where
  grows : Grows origin E start s
  own : ∀ id, (n, id) ∈ s.uses → (n, id) ∈ start.uses

theorem Since.refl (hE : Admissible E) (n : Nat) (s : StoreState globs) : Since origin E n s s :=
  ⟨.refl hE s, fun _ h => h⟩

variable {n : Nat} {start : StoreState globs}

theorem Since.trans (hE : Admissible E) (h : Since origin E n start s)
    (h' : Since origin E n s s') : Since origin E n start s' :=
  ⟨h.grows.trans hE h'.grows, fun id hid => h.own id (h'.own id hid)⟩

theorem Since.relied (hE : Admissible E) (h : Since origin E n start s)
    (hs : Relied origin E n s s') : Since origin E n start s' :=
  ⟨h.grows.trans hE hs.grows, fun id hid => h.own id (hs.own id hid)⟩

variable (origin E) in
/-- Wherever call `n` is since `start`, the program returns what `Q` says. -/
def Ensures {α : Type} (verify : Verify) (n : Nat) (start : StoreState globs) (p : Call globs α)
    (Q : α → Prop) : Prop :=
  ∀ s, Since origin E n start s →
    Valid (store verify E) (Relied origin E) n p s fun a s' => Since origin E n start s' ∧ Q a

namespace Ensures

variable {verify : Verify} {n : Nat} {start : StoreState globs} {α β : Type} {Q : α → Prop}

theorem pure (hE : Admissible E) {a : α} (h : Q a) :
    Ensures origin E verify n start (pure a) Q :=
  fun _ hs => Valid.pure fun _ hs' => ⟨hs.relied hE hs', h⟩

variable {p : Call globs α}

theorem bind (hE : Admissible E) {k : α → Call globs β} {Q' : β → Prop}
    (h : Ensures origin E verify n start p Q)
    (hk : ∀ a, Q a → Ensures origin E verify n start (k a) Q') :
    Ensures origin E verify n start (p >>= k) Q' := by
  intro s hs
  apply Valid.bind (relies verify hE)
  exact (h s hs).mono fun a s' hs' => hk a hs'.2 s' hs'.1

theorem mono {Q' : α → Prop} (h : Ensures origin E verify n start p Q) (hQ : ∀ a, Q a → Q' a) :
    Ensures origin E verify n start p Q' :=
  fun s hs => (h s hs).mono fun a _ hs' => ⟨hs'.1, hQ a hs'.2⟩

section

variable (hE : Admissible E)

include hE

theorem pick : Ensures origin E verify n start Prog.pick fun _ => True :=
  fun _ hs => Valid.pick fun _ _ hs' => ⟨hs.relied hE hs', trivial⟩

theorem read {f : StoreState globs → α} (h : ∀ s, Grows origin E start s → Q (f s)) :
    Ensures origin E verify n start (.read f) Q :=
  fun _ hs => Valid.read (relies verify hE) fun s' hs' _ hs'' =>
    ⟨(hs.relied hE hs').relied hE hs'', h s' (hs.relied hE hs').grows⟩

/-- An action that leaves the used ids, their lock and the log alone. -/
theorem quiet {ready : StoreState globs → Bool} {f : StoreState globs → α × StoreState globs}
    (hgrows : ∀ s, Grows origin E start s → E s (f s).2 → Grows origin E s (f s).2)
    (hused : ∀ s, (f s).2.used = s.used) (huses : ∀ s, (f s).2.uses = s.uses)
    (hlock : ∀ s, (f s).2.usedLock = s.usedLock) (h : ∀ s, Grows origin E start s → Q (f s).1) :
    Ensures origin E verify n start (.whenReady ready f) Q := by
  intro s hs s' hs' _ hallowed
  have hstart := hs.relied hE hs'
  have hstep := (hgrows s' hstart.grows hallowed).relied (hused s') (huses s') (hlock s')
  refine ⟨fun m _ => hstep m, fun s'' hs'' => ?_⟩
  exact ⟨(hstart.relied hE (hstep n)).relied hE hs'', h s' hstart.grows⟩

theorem modify {f : StoreState globs → StoreState globs}
    (hgrows : ∀ s, Grows origin E start s → E s (f s) → Grows origin E s (f s))
    (hused : ∀ s, (f s).used = s.used) (huses : ∀ s, (f s).uses = s.uses)
    (hlock : ∀ s, (f s).usedLock = s.usedLock) :
    Ensures origin E verify n start (.modify f) fun _ => True :=
  quiet hE hgrows hused huses hlock fun _ _ => trivial

theorem read_true (f : StoreState globs → α) :
    Ensures origin E verify n start (.read f) fun _ => True :=
  read hE fun _ _ => trivial

theorem hasKv : Ensures origin E verify n start (hasKv : Call globs Bool) fun _ => True :=
  read_true hE _

theorem validateNow (token : CapabilityToken globs) :
    Ensures origin E verify n start (validateNow verify token) fun _ => True :=
  read_true hE _

theorem andThen {p : Call globs (Outcome α)} {k : α → Call globs (Outcome β)} {Q : Outcome α → Prop}
    {Q' : Outcome β → Prop} (h : Ensures origin E verify n start p Q)
    (hok : ∀ a, Q (.ok a) → Ensures origin E verify n start (k a) Q')
    (herror : ∀ e, Q (.error e) → Q' (.error e)) :
    Ensures origin E verify n start (andThen p k) Q' := by
  refine bind hE h fun outcome houtcome => ?_
  cases outcome with
  | ok a => exact hok a houtcome
  | error e => exact pure hE (herror e houtcome)

/-- An operation of the key-value store, which may fail. -/
theorem kvOp {f : Kv → α × Kv} (hf : KvKeeps fun kv => (f kv).2) {Q : Outcome α → Prop}
    (hok : ∀ s kv, Grows origin E start s → s.kv = some kv → Q (.ok (f kv).1))
    (herror : ∀ e, Q (.error e)) : Ensures origin E verify n start (kvOp f) Q := by
  refine bind hE (pick hE) fun outcome _ => ?_
  by_cases houtcome : outcome = 0
  · rw [if_pos houtcome]
    exact pure hE (herror _)
  rw [if_neg houtcome]
  refine quiet hE ?_ ?_ ?_ ?_ ?_
  · intro s _ hallowed
    cases hkv : s.kv with
    | none => simpa only [hkv] using Grows.refl hE s
    | some =>
      simp only [hkv] at hallowed ⊢
      exact grows_kv hf hkv hallowed
  · intro s
    cases hkv : s.kv with
    | none | some => simp only
  · intro s
    cases hkv : s.kv with
    | none | some => simp only
  · intro s
    cases hkv : s.kv with
    | none | some => simp only
  · intro s hs
    cases hkv : s.kv with
    | none => exact herror _
    | some kv =>
      simp only
      by_cases hreported : outcome = 2
      · rw [if_pos hreported]
        exact herror _
      · rw [if_neg hreported]
        exact hok s kv hs hkv

/-- Reading the key-value store. -/
theorem kvGet {f : Kv → α} {Q : Outcome α → Prop}
    (hok : ∀ s kv, Grows origin E start s → s.kv = some kv → Q (.ok (f kv)))
    (herror : ∀ e, Q (.error e)) : Ensures origin E verify n start (kvGet f) Q :=
  kvOp hE ⟨fun _ => rfl, fun _ _ h => h, fun _ h => h⟩ hok herror

theorem kvGet_true (f : Kv → α) :
    Ensures origin E verify n start (Capability.kvGet f) fun _ => True :=
  kvGet hE (fun _ _ _ _ => trivial) fun _ => trivial

theorem kvPut (hf : KvKeeps f) : Ensures origin E verify n start (kvPut f) fun _ => True :=
  kvOp hE hf (fun _ _ _ _ => trivial) fun _ => trivial

theorem tryPut (hf : KvKeeps f) : Ensures origin E verify n start (tryPut f) fun _ => True :=
  bind hE (kvPut hE hf) fun _ _ => pure hE trivial

theorem withRetirement {body : FSet PrincipalId → Call globs α}
    (h : ∀ s, Grows origin E start s → Ensures origin E verify n start (body s.retiring) Q) :
    Ensures origin E verify n start (withRetirement n body) Q := by
  have hacquire : Ensures origin E verify n start
      (.atomically fun s => (s.retiring, { s with readers := s.readers.insert n }))
      fun retiring => ∃ s, Grows origin E start s ∧ s.retiring = retiring := by
    refine quiet hE ?_ (fun _ => rfl) (fun _ => rfl) (fun _ => rfl) fun s hs => ⟨s, hs, rfl⟩
    exact fun s _ hextra => grows_of_same hextra
  have hrelease : Ensures origin E verify n start
      (.modify fun s => { s with readers := s.readers.erase n }) fun _ => True :=
    modify hE (fun s _ hextra => grows_of_same hextra) (fun _ => rfl) (fun _ => rfl) fun _ => rfl
  refine bind hE hacquire fun retiring ⟨s, hs, hretiring⟩ => ?_
  subst hretiring
  exact bind hE (h s hs) fun result hresult => bind hE hrelease fun _ _ => pure hE hresult

end

end Ensures

end Rely

end Astrid.Capability
