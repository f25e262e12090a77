import IFreeChat.Basis.Memory

/-!
# Blocks in use

An extent is a range of addresses.  An allocator that gives a block takes its extent from
whatever is there: of the things that lie at extents of their own, those that it meets are gone
(`spared`).  A block that is given while no extent in use meets it spares all of them
(`spared_eq_self`).
-/

namespace Basis

/-- The `length` addresses from `start` on. -/
structure Extent where
  start : Nat
  length : Nat
deriving DecidableEq

namespace Extent

/-- Two extents have no address in common. -/
def Apart (r r' : Extent) : Prop := Basis.Apart r.start r.length r'.start r'.length

instance (r r' : Extent) : Decidable (r.Apart r') :=
  inferInstanceAs (Decidable (Basis.Apart ..))

/-- An extent meets none of those in use. -/
def Unused (r : Extent) (used : List Extent) : Prop := ∀ r' ∈ used, r.Apart r'

instance (r : Extent) (used : List Extent) : Decidable (r.Unused used) :=
  inferInstanceAs (Decidable (∀ r' ∈ used, _))

theorem Unused.mono {r : Extent} {used used' : List Extent} (h : r.Unused used)
    (hsub : used' ⊆ used) :
  r.Unused used'
  := by
  intro r' hr'
  apply h r' (hsub hr')

/-- The things at extents of their own that a new block does not meet. -/
def spared {α : Type*} (extent : α → Extent) (r : Extent) (xs : List α) : List α :=
  xs.filter fun x => r.Apart (extent x)

theorem spared_eq_self {α : Type*} {extent : α → Extent} {r : Extent} {xs : List α}
    (h : r.Unused (xs.map extent)) :
  spared extent r xs = xs
  := by
  apply List.filter_eq_self.mpr
  intro x hx
  exact decide_eq_true (h (extent x) (List.mem_map_of_mem hx))

end Extent

end Basis
