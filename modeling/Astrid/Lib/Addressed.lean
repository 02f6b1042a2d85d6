import Astrid.Lib.Maps

/-!
# Content-addressed maps

A map whose keys are computed from its values by an injective function. There is at most one
value for a key, so insertion never replaces a value, and of two such maps the union has what
either has.
-/

namespace Astrid

open Std ExtTreeMap Option

section Addressed

variable {κ β : Type} [Key κ] (address : β → κ)

/-- Every value stands under its own address. -/
def ContentAddressed (m : FMap κ β) : Prop := ∀ k v, m[k]? = some v → address v = k

variable {address}

theorem contentAddressed_empty : ContentAddressed address ∅ := by
  intro k v h
  cases h

namespace ContentAddressed

variable {m m' : FMap κ β}

section

variable (h : ContentAddressed address m)

include h

theorem insert (v : β) : ContentAddressed address (m.insert (address v) v) :=
  forall_insert rfl h

section

variable (hinj : Function.Injective address)

include hinj

variable {v w : β}

theorem eq_of_get (hw : m[address v]? = some w) : w = v :=
  hinj (h _ w hw)

/-- What stands under an address already is the value itself. -/
theorem insert_eq_self (hw : m[address v]? = some w) : m.insert (address v) v = m := by
  obtain rfl := h.eq_of_get hinj hw
  refine ext_getElem? fun k => ?_
  rw [getElem?_insert_of]
  split
  next hk => rw [← hk, hw]
  next => rfl

theorem get_insert {k : κ} (hw : m[k]? = some w) : (m.insert (address v) v)[k]? = some w := by
  rw [getElem?_insert_of]
  split
  next hk =>
    subst hk
    rw [h.eq_of_get hinj hw]
  next => exact hw

end

theorem union (h' : ContentAddressed address m') : ContentAddressed address (m ∪ m') := by
  intro k v hv
  rw [getElem?_union, or_eq_some_iff] at hv
  rcases hv with hv | ⟨_, hv⟩
  · exact h' k v hv
  · exact h k v hv

theorem get_union (h' : ContentAddressed address m') (hinj : Function.Injective address) {k : κ}
    {v : β} : (m ∪ m')[k]? = some v ↔ m[k]? = some v ∨ m'[k]? = some v := by
  rw [getElem?_union, or_eq_some_iff]
  constructor
  · rintro (hv | ⟨_, hv⟩)
    · exact .inr hv
    · exact .inl hv
  · rintro (hv | hv)
    · cases hw : m'[k]? with
      | none => exact .inr ⟨rfl, hv⟩
      | some w => rw [hinj ((h' k w hw).trans (h k v hv).symm)]; exact .inl rfl
    · exact .inl hv

end

end ContentAddressed

end Addressed

end Astrid
