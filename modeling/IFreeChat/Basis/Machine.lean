import Mathlib.Data.List.Basic

/-!
# Machines and their runs

A machine is a partial step function: in a state it answers an event with an output and
the next state, or it does not return.  `M.run s es` is the run of the list `es` of events
from `s`, and `M.Meets cond s es` says that along it every event meets `cond` in the state
it is taken in.

What one step keeps, a run keeps (`run_invariant`, `run_keeps`), and what every step lowers
bounds the length of a run (`run_rank`); a machine each of whose steps is matched by a step of
another one from related states has its runs matched as well (`run_refines`).  Two conditions
that agree on every step agree along a run (`meets_iff`).
-/

namespace Basis

/-- A machine with states `S`, events `E` and outputs `O`.  A step that does not return
is `none`. -/
structure Machine (S E O : Type*) where
  step : S → E → Option (O × S)

namespace Machine

variable {S E O : Type*} (M : Machine S E O)

/-- The outputs of the events `es` taken in order from `s` and the state after them,
`none` once an event does not return. -/
def run : S → List E → Option (List O × S)
  | s, [] => some ([], s)
  | s, e :: es =>
      match M.step s e with
      | none => none
      | some (o, s') =>
          match run s' es with
          | none => none
          | some (os, t) => some (o :: os, t)

/-- Along the run of `es` from `s`, every event meets `cond` in the state it is taken
in. -/
def Meets (cond : S → E → Prop) : S → List E → Prop
  | _, [] => True
  | s, e :: es => cond s e ∧ ∀ o s', M.step s e = some (o, s') → Meets cond s' es

@[simp]
theorem run_nil (s : S) :
  M.run s [] = some ([], s)
  := rfl

/-- A run of `e :: es` is a step on `e` followed by a run of `es`. -/
theorem run_cons_iff {s t : S} {e : E} {es : List E} {os : List O} :
  M.run s (e :: es) = some (os, t)
    ↔ ∃ o s' os', M.step s e = some (o, s') ∧ M.run s' es = some (os', t) ∧ os = o :: os'
  := by
  constructor
  · intro h
    rw [run] at h
    split at h
    · cases h
    · rename_i o s' hstep
      split at h
      · cases h
      · rename_i os' t' hrun
        cases h
        use o, s', os'
  · rintro ⟨o, s', os', hstep, hrun, rfl⟩
    simp only [run, hstep, hrun]

/-- A step and a run from where it leads. -/
theorem run_cons_of_step {s s' t : S} {e : E} {o : O} {es : List E} {os : List O}
    (hstep : M.step s e = some (o, s')) (hrun : M.run s' es = some (os, t)) :
  M.run s (e :: es) = some (o :: os, t)
  := M.run_cons_iff.mpr ⟨o, s', os, hstep, hrun, rfl⟩

/-- A run of `es ++ es'` is a run of `es` followed by a run of `es'`. -/
theorem run_append_iff {s t : S} {es es' : List E} {os : List O} :
  M.run s (es ++ es') = some (os, t)
    ↔ ∃ os₁ u os₂, M.run s es = some (os₁, u) ∧ M.run u es' = some (os₂, t)
        ∧ os = os₁ ++ os₂
  := by
  induction es generalizing s os with
  | nil =>
    constructor
    · intro h
      use [], s, os, rfl, h
      rfl
    · rintro ⟨os₁, u, os₂, h₁, h₂, rfl⟩
      cases h₁
      apply h₂
  | cons e es ih =>
    rw [List.cons_append, run_cons_iff]
    constructor
    · rintro ⟨o, s', os', hstep, hrun, rfl⟩
      obtain ⟨os₁, u, os₂, h₁, h₂, rfl⟩ := ih.mp hrun
      use o :: os₁, u, os₂, M.run_cons_of_step hstep h₁, h₂
      rfl
    · rintro ⟨os₁, u, os₂, h₁, h₂, rfl⟩
      obtain ⟨o, s', os', hstep, hrun, rfl⟩ := M.run_cons_iff.mp h₁
      use o, s', os' ++ os₂, hstep, ih.mpr ⟨os', u, os₂, hrun, h₂, rfl⟩
      rfl

/-- If every step on an event meeting `cond` keeps `Inv`, then a run whose events all
meet `cond` keeps it. -/
theorem run_invariant
    {Inv : S → Prop} {cond : S → E → Prop}
    (hstep : ∀ s e o s', Inv s → cond s e → M.step s e = some (o, s') → Inv s')
    {s t : S} {es : List E} {os : List O}
    (hs : Inv s) (hmeets : M.Meets cond s es) (hrun : M.run s es = some (os, t)) :
  Inv t
  := by
  induction es generalizing s os with
  | nil =>
    cases hrun
    apply hs
  | cons e es ih =>
    obtain ⟨o, s', os', he, hes, rfl⟩ := M.run_cons_iff.mp hrun
    obtain ⟨hcond, hrest⟩ := hmeets
    apply ih (hstep s e o s' hs hcond he) (hrest o s' he) hes

/-- If every step on an event meeting `cond` lowers `rank`, then a run whose events all meet
`cond` has no more events than it takes from `rank`. -/
theorem run_rank
    {cond : S → E → Prop} {rank : S → Nat}
    (hstep : ∀ s e o s', cond s e → M.step s e = some (o, s') → rank s' < rank s)
    {s t : S} {es : List E} {os : List O}
    (hmeets : M.Meets cond s es) (hrun : M.run s es = some (os, t)) :
  es.length + rank t ≤ rank s
  := by
  induction es generalizing s os with
  | nil =>
    cases hrun
    simp
  | cons e es ih =>
    obtain ⟨o, s', os', he, hes, rfl⟩ := M.run_cons_iff.mp hrun
    obtain ⟨hcond, hrest⟩ := hmeets
    have hlower := hstep s e o s' hcond he
    have hes := ih (hrest o s' he) hes
    rw [List.length_cons]
    omega

/-- If every step takes what `Inv` relates to the events before it to what `Inv` relates
to these events and its own, then a run does so with all its events. -/
theorem run_history
    {Inv : List E → S → Prop}
    (hstep : ∀ h s e o s', Inv h s → M.step s e = some (o, s') → Inv (h ++ [e]) s')
    {h : List E} {s t : S} {es : List E} {os : List O}
    (hs : Inv h s) (hrun : M.run s es = some (os, t)) :
  Inv (h ++ es) t
  := by
  induction es generalizing h s os with
  | nil =>
    cases hrun
    rw [List.append_nil]
    apply hs
  | cons e es ih =>
    obtain ⟨o, s', os', he, hes, rfl⟩ := M.run_cons_iff.mp hrun
    rw [List.append_cons]
    apply ih (hstep h s e o s' hs he) hes

/-- If every step of `N` on an event meeting `cond` is matched from related states by a
step of `M` with the same output, then so is every run of `N` whose events all meet
`cond`. -/
theorem run_refines
    {T : Type*} {N : Machine T E O} {R : S → T → Prop} {cond : T → E → Prop}
    (hstep : ∀ s t e o t', R s t → cond t e → N.step t e = some (o, t') →
      ∃ s', M.step s e = some (o, s') ∧ R s' t')
    {s : S} {t t' : T} {es : List E} {os : List O}
    (hR : R s t) (hmeets : N.Meets cond t es) (hrun : N.run t es = some (os, t')) :
  ∃ s', M.run s es = some (os, s') ∧ R s' t'
  := by
  induction es generalizing s t os with
  | nil =>
    cases hrun
    use s, rfl
  | cons e es ih =>
    obtain ⟨o, u, os', he, hes, rfl⟩ := N.run_cons_iff.mp hrun
    obtain ⟨hcond, hrest⟩ := hmeets
    obtain ⟨v, hv, hvu⟩ := hstep s t e o u hR hcond he
    obtain ⟨s', hs', hs't'⟩ := ih hvu (hrest o u he) hes
    use s', M.run_cons_of_step hv hs'

/-- If from every state satisfying `Inv` a step on an event meeting `cond` returns and
keeps `Inv`, then a run whose events all meet `cond` returns and keeps it. -/
theorem run_returns
    {Inv : S → Prop} {cond : S → E → Prop}
    (hstep : ∀ s e, Inv s → cond s e → ∃ o s', M.step s e = some (o, s') ∧ Inv s')
    {s : S} {es : List E} (hs : Inv s) (hmeets : M.Meets cond s es) :
  ∃ os t, M.run s es = some (os, t) ∧ Inv t
  := by
  induction es generalizing s with
  | nil =>
    use [], s, rfl
  | cons e es ih =>
    obtain ⟨hcond, hrest⟩ := hmeets
    obtain ⟨o, s', he, hs'⟩ := hstep s e hs hcond
    obtain ⟨os, t, hrun, ht⟩ := ih hs' (hrest o s' he)
    use o :: os, t, M.run_cons_of_step he hrun

/-- If from every state satisfying `Inv` a step on an event meeting `cond` returns an output
satisfying `Q` and keeps `Inv`, then so does a run whose events all meet `cond`, with all
its outputs. -/
theorem run_outputs
    {Inv : S → Prop} {cond : S → E → Prop} {Q : O → Prop}
    (hstep : ∀ s e, Inv s → cond s e → ∃ o s', M.step s e = some (o, s') ∧ Q o ∧ Inv s')
    {s : S} {es : List E} (hs : Inv s) (hmeets : M.Meets cond s es) :
  ∃ os t, M.run s es = some (os, t) ∧ (∀ o ∈ os, Q o) ∧ Inv t
  := by
  induction es generalizing s with
  | nil =>
    use [], s, rfl
    exact ⟨by simp, hs⟩
  | cons e es ih =>
    obtain ⟨hcond, hrest⟩ := hmeets
    obtain ⟨o, s', he, ho, hs'⟩ := hstep s e hs hcond
    obtain ⟨os, t, hrun, hos, ht⟩ := ih hs' (hrest o s' he)
    use o :: os, t, M.run_cons_of_step he hrun
    exact ⟨List.forall_mem_cons.mpr ⟨ho, hos⟩, ht⟩

/-- A condition that each of these events meets in every state is met along their run. -/
theorem meets_of_forall_mem {cond : S → E → Prop} {es : List E} (h : ∀ s, ∀ e ∈ es, cond s e)
    (s : S) :
  M.Meets cond s es
  := by
  induction es generalizing s with
  | nil => trivial
  | cons e es ih =>
    use h s e List.mem_cons_self
    intro _ s' _
    apply ih
    intro s e he
    apply h s e (List.mem_cons_of_mem _ he)

/-- A condition every event meets in every state is met along every run. -/
theorem meets_of_forall {cond : S → E → Prop} (h : ∀ s e, cond s e) (s : S) (es : List E) :
  M.Meets cond s es
  := M.meets_of_forall_mem (fun s e _ => h s e) s

/-- What every step keeps, every run keeps. -/
theorem run_keeps
    {Inv : S → Prop}
    (hstep : ∀ s e o s', Inv s → M.step s e = some (o, s') → Inv s')
    {s t : S} {es : List E} {os : List O} (hs : Inv s) (hrun : M.run s es = some (os, t)) :
  Inv t
  := by
  have hmeets : M.Meets (fun _ _ => True) s es :=
    M.meets_of_forall (fun _ _ => trivial) s es
  apply M.run_invariant _ hs hmeets hrun
  intro s e o s' hs _ h
  apply hstep s e o s' hs h

/-- If from related states an event meeting `cond` is answered alike by both machines and
leads to related states, then along events that all meet `cond` the two machines give the
same answers. -/
theorem run_lockstep
    {T : Type*} {N : Machine T E O} {R : S → T → Prop} {cond : S → E → Prop}
    (hstep : ∀ s t e, R s t → cond s e →
      ∃ o s' t', M.step s e = some (o, s') ∧ N.step t e = some (o, t') ∧ R s' t')
    {s : S} {t : T} {es : List E} (hR : R s t) (hmeets : M.Meets cond s es) :
  ∃ os s' t', M.run s es = some (os, s') ∧ N.run t es = some (os, t') ∧ R s' t'
  := by
  induction es generalizing s t with
  | nil =>
    use [], s, t, rfl, rfl
  | cons e es ih =>
    obtain ⟨hcond, hrest⟩ := hmeets
    obtain ⟨o, s₁, t₁, hs, ht, hR₁⟩ := hstep s t e hR hcond
    obtain ⟨os, s', t', hrun, hrun', hR'⟩ := ih hR₁ (hrest o s₁ hs)
    use o :: os, s', t', M.run_cons_of_step hs hrun, N.run_cons_of_step ht hrun'

theorem meets_and {cond cond' : S → E → Prop} {s : S} {es : List E}
    (h : M.Meets cond s es) (h' : M.Meets cond' s es) :
  M.Meets (fun s e => cond s e ∧ cond' s e) s es
  := by
  induction es generalizing s with
  | nil => trivial
  | cons e es ih =>
    use ⟨h.1, h'.1⟩
    intro o s' he
    apply ih (h.2 o s' he) (h'.2 o s' he)

theorem meets_imp {cond cond' : S → E → Prop} (himp : ∀ s e, cond s e → cond' s e) {s : S}
    {es : List E} (h : M.Meets cond s es) :
  M.Meets cond' s es
  := by
  induction es generalizing s with
  | nil => trivial
  | cons e es ih =>
    use himp s e h.1
    intro o s' he
    apply ih (h.2 o s' he)

/-- If in every state satisfying `Inv` an event meeting `pre` meets `P` exactly when it
meets `Q`, and a step on an event meeting both keeps `Inv`, then along a run whose events
all meet `pre` they all meet `P` exactly when they all meet `Q`. -/
theorem meets_iff
    {Inv : S → Prop} {pre P Q : S → E → Prop}
    (hiff : ∀ s e, Inv s → pre s e → (P s e ↔ Q s e))
    (hstep : ∀ s e o s', Inv s → pre s e → Q s e → M.step s e = some (o, s') → Inv s')
    {s : S} {es : List E} (hs : Inv s) (hpre : M.Meets pre s es) :
  M.Meets P s es ↔ M.Meets Q s es
  := by
  induction es generalizing s with
  | nil => exact Iff.rfl
  | cons e es ih =>
    obtain ⟨he, hes⟩ := hpre
    rw [Meets, Meets, hiff s e hs he]
    apply and_congr_right
    intro hQ
    apply forall₂_congr
    intro o s'
    apply imp_congr_right
    intro h
    apply ih (hstep s e o s' hs he hQ h) (hes o s' h)

/-- Along a run every event is answered. -/
theorem meets_of_run {s t : S} {es : List E} {os : List O} (hrun : M.run s es = some (os, t)) :
  M.Meets (fun s e => (M.step s e).isSome) s es
  := by
  induction es generalizing s os with
  | nil => trivial
  | cons e es ih =>
    obtain ⟨o, s', os', hstep, hrest, -⟩ := M.run_cons_iff.mp hrun
    constructor
    · apply Option.isSome_iff_exists.mpr ⟨(o, s'), hstep⟩
    · intro o' s'' hstep'
      rw [hstep] at hstep'
      cases hstep'
      apply ih hrest

/-- Every event along a run leads to a state satisfying `P` exactly when every state that is
reached satisfies it. -/
theorem meets_iff_reached {P : S → Prop} {s : S} {es : List E} (hs : P s) :
  M.Meets (fun s e => ∀ o s', M.step s e = some (o, s') → P s') s es
    ↔ ∀ es' os t, es' <+: es → M.run s es' = some (os, t) → P t
  := by
  induction es generalizing s with
  | nil =>
    constructor
    · intro _ es' os t hprefix hrun
      rw [List.prefix_nil.mp hprefix, run_nil] at hrun
      cases hrun
      exact hs
    · intro _
      trivial
  | cons e es ih =>
    constructor
    · rintro ⟨he, hes⟩ es' os t hprefix hrun
      obtain rfl | ⟨es'', rfl, hrest⟩ := List.prefix_cons_iff.mp hprefix
      · cases hrun
        exact hs
      · obtain ⟨o, s', os', hstep, hrun, -⟩ := M.run_cons_iff.mp hrun
        exact (ih (he o s' hstep)).mp (hes o s' hstep) es'' os' t hrest hrun
    · intro h
      have he : ∀ o s', M.step s e = some (o, s') → P s' := by
        intro o s' hstep
        apply h [e] [o] s' (List.cons_prefix_cons.mpr ⟨rfl, List.nil_prefix⟩)
        apply M.run_cons_of_step hstep (M.run_nil s')
      use he
      intro o s' hstep
      apply (ih (he o s' hstep)).mpr
      intro es' os t hprefix hrun
      apply h (e :: es') (o :: os) t (List.cons_prefix_cons.mpr ⟨rfl, hprefix⟩)
      apply M.run_cons_of_step hstep hrun

/-- If events meeting `cond` keep `Good`, all others lead from `Good` to `Bad`, and every event
keeps `Bad`, then a run from `Good` ends in `Good` if all its events meet `cond`, and in `Bad`
otherwise; where all events meet `pre`, only such events matter. -/
theorem run_good_or_bad
    {Good Bad : S → Prop} {pre cond : S → E → Prop}
    (hgood : ∀ s e o s', Good s → pre s e → cond s e → M.step s e = some (o, s') → Good s')
    (hbad : ∀ s e o s', Good s → pre s e → ¬ cond s e → M.step s e = some (o, s') → Bad s')
    (hkeeps : ∀ s e o s', Bad s → pre s e → M.step s e = some (o, s') → Bad s')
    {s t : S} {es : List E} {os : List O} (hs : Good s) (hpre : M.Meets pre s es)
    (hrun : M.run s es = some (os, t)) :
  M.Meets cond s es ∧ Good t ∨ ¬ M.Meets cond s es ∧ Bad t
  := by
  induction es generalizing s os with
  | nil =>
    cases hrun
    left
    exact ⟨trivial, hs⟩
  | cons e es ih =>
    obtain ⟨o, s', os', hstep, hrest, -⟩ := M.run_cons_iff.mp hrun
    obtain ⟨hfirst, hpre⟩ := hpre
    by_cases he : cond s e
    · rcases ih (hgood s e o s' hs hfirst he hstep) (hpre o s' hstep) hrest
        with ⟨hmeets, ht⟩ | ⟨hnot, ht⟩
      · left
        refine ⟨⟨he, ?_⟩, ht⟩
        intro o' s'' hstep'
        rw [hstep] at hstep'
        cases hstep'
        apply hmeets
      · right
        refine ⟨?_, ht⟩
        rintro ⟨-, hmeets⟩
        apply hnot (hmeets o s' hstep)
    · right
      refine ⟨fun h => he h.1, ?_⟩
      apply M.run_invariant hkeeps (hbad s e o s' hs hfirst he hstep) (hpre o s' hstep) hrest

/-- A condition on the events alone is met along a run exactly when all its events meet it. -/
theorem meets_iff_forall_mem {cond : E → Prop} {s t : S} {es : List E} {os : List O}
    (hrun : M.run s es = some (os, t)) :
  M.Meets (fun _ e => cond e) s es ↔ ∀ e ∈ es, cond e
  := by
  constructor
  · intro h
    induction es generalizing s os with
    | nil => simp
    | cons e es ih =>
      obtain ⟨o, s', os', hstep, hrest, -⟩ := M.run_cons_iff.mp hrun
      rw [List.forall_mem_cons]
      exact ⟨h.1, ih hrest (h.2 o s' hstep)⟩
  · intro h
    apply M.meets_of_forall_mem fun _ => h

/-- The machine with a history beside its state, to which every event is added. -/
def withHistory {H : Type*} (record : H → S → E → H) : Machine (S × H) E O where
  step p e := (M.step p.1 e).map fun r => (r.1, r.2, record p.2 p.1 e)

/-- A condition on the states is met with a history as it is without. -/
theorem meets_withHistory {H : Type*} (record : H → S → E → H) {cond : S → E → Prop} {s : S}
    (h : H) {es : List E} :
  (M.withHistory record).Meets (fun p e => cond p.1 e) (s, h) es ↔ M.Meets cond s es
  := by
  induction es generalizing s h with
  | nil => exact Iff.rfl
  | cons e es ih =>
    apply and_congr_right
    intro _
    constructor
    · intro hmeets o s' hstep
      apply (ih (record h s e)).mp
      apply hmeets o
      simp only [withHistory, hstep, Option.map_some]
    · intro hmeets o p hstep
      obtain ⟨⟨o', s'⟩, hstep', heq⟩ := Option.map_eq_some_iff.mp hstep
      cases heq
      apply (ih (record h s e)).mpr (hmeets _ _ hstep')

instance (cond : S → E → Prop) [∀ s e, Decidable (cond s e)] :
    ∀ (s : S) (es : List E), Decidable (M.Meets cond s es)
  | _, [] => .isTrue trivial
  | s, e :: es =>
      match hstep : M.step s e with
      | none => decidable_of_iff (cond s e) (by
          simp [Meets, hstep])
      | some (o, s') =>
          have : Decidable (M.Meets cond s' es) := instDecidableMeets cond s' es
          decidable_of_iff (cond s e ∧ M.Meets cond s' es) (by
            simp [Meets, hstep])

end Machine

end Basis
