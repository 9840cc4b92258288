import Mathlib.Tactic

/-!
# Runs of operations

A system is a step function from a state and an operation to the next state and a result, or to
nothing when the operation does not return.  What one step keeps, a run keeps; a step that follows an
abstract step makes every run follow the abstract run.
-/

namespace Skjegg.Lib

variable {S O R A : Type}

/-- Apply the operations in order and collect their results. -/
def runOps (step : S → O → Option (S × R)) : S → List O → Option (S × List R)
  | s, [] => some (s, [])
  | s, o :: os =>
    match step s o with
    | none => none
    | some (s', r) =>
      match runOps step s' os with
      | none => none
      | some (s'', rs) => some (s'', r :: rs)

/-- Every operation of the list meets the condition in the state it is applied to. -/
def OpsMeet (step : S → O → Option (S × R)) (ok : S → O → Prop) : S → List O → Prop
  | _, [] => True
  | s, o :: os => ok s o ∧ ∀ s' r, step s o = some (s', r) → OpsMeet step ok s' os

instance decidableOpsMeet (step : S → O → Option (S × R)) (ok : S → O → Prop)
    [∀ s o, Decidable (ok s o)] : ∀ s os, Decidable (OpsMeet step ok s os)
  | _, [] => isTrue trivial
  | s, o :: os =>
    match h : step s o with
    | none => decidable_of_iff (ok s o) ⟨fun hok => ⟨hok, fun _ _ hs => by cases h.symm.trans hs⟩, And.left⟩
    | some (s', _) =>
      have := decidableOpsMeet step ok s' os
      decidable_of_iff (ok s o ∧ OpsMeet step ok s' os)
        ⟨fun hok => ⟨hok.1, fun _ _ hs => by cases h.symm.trans hs; exact hok.2⟩,
          fun hok => ⟨hok.1, hok.2 _ _ h⟩⟩

/-- Every step of the run returns and is as `good` says, of the states before and after it. -/
def RunAll (step : S → O → Option (S × R)) (good : S → O → S → R → Prop) : S → List O → Prop
  | _, [] => True
  | s, o :: os => ∃ s' r, step s o = some (s', r) ∧ good s o s' r ∧ RunAll step good s' os

/-- The results of an abstract system, whose steps always return. -/
def runAbstract (astep : A → O → A × R) : A → List O → A × List R
  | a, [] => (a, [])
  | a, o :: os =>
    let (a', r) := astep a o
    let (a'', rs) := runAbstract astep a' os
    (a'', r :: rs)

variable {step : S → O → Option (S × R)} {ok : S → O → Prop} {os : List O} {s : S}

theorem OpsMeet.and {free : O → Prop} (h : OpsMeet step ok s os)
    (hfr : ∀ o ∈ os, free o) : OpsMeet step (fun s o => ok s o ∧ free o) s os := by
  induction os generalizing s with
  | nil => trivial
  | cons o os ih =>
    exact ⟨⟨h.1, hfr o List.mem_cons_self⟩, fun s' r hst =>
      ih (h.2 s' r hst) fun o' ho' => hfr o' (List.mem_cons_of_mem _ ho')⟩

theorem runOps_keeps {Inv : S → Prop}
    (hst : ∀ s o s' r, Inv s → ok s o → step s o = some (s', r) → Inv s') {s' : S} {rs : List R} (h : Inv s)
    (hos : OpsMeet step ok s os) (hrun : runOps step s os = some (s', rs)) : Inv s' := by
  induction os generalizing s rs with
  | nil =>
    cases hrun
    exact h
  | cons o os ih =>
    rw [runOps] at hrun
    split at hrun
    · cases hrun
    next mid r hmid =>
      split at hrun
      · cases hrun
      next s'' rs' hrs =>
        cases hrun
        exact ih (hst s o mid r h hos.1 hmid) (hos.2 mid r hmid) hrs

variable {good : S → O → S → R → Prop}

theorem runAll_of_inv {Inv : S → Prop}
    (hst : ∀ s o, Inv s → ok s o → ∃ s' r, step s o = some (s', r) ∧ good s o s' r ∧ Inv s')
    (h : Inv s) (hos : OpsMeet step ok s os) : RunAll step good s os := by
  induction os generalizing s with
  | nil => trivial
  | cons o os ih =>
    obtain ⟨s', r, hs, hgd, hinv⟩ := hst s o h hos.1
    exact ⟨s', r, hs, hgd, ih hinv (hos.2 s' r hs)⟩

theorem RunAll.last {s s' : S} {o : O} {rs : List R}
    (h : RunAll step good s (os ++ [o])) (hos : runOps step s os = some (s', rs)) :
    ∃ s'' r, step s' o = some (s'', r) ∧ good s' o s'' r := by
  induction os generalizing s rs with
  | nil =>
    cases hos
    obtain ⟨s'', r, hst, hgd, -⟩ := h
    exact ⟨s'', r, hst, hgd⟩
  | cons o' os ih =>
    obtain ⟨mid, r, hst, -, hrs⟩ := h
    rw [runOps, hst] at hos
    cases hrun : runOps step mid os with
    | none =>
      simp only [hrun] at hos
      cases hos
    | some res =>
      simp only [hrun, Option.some.injEq, Prod.mk.injEq] at hos
      exact ih hrs (hrun.trans (by rw [← hos.1]))

theorem RunAll.final {Q : S → Prop} (h : RunAll step (fun _ _ s' _ => Q s') s os) (hs : Q s) :
    ∃ s' rs, runOps step s os = some (s', rs) ∧ Q s' := by
  induction os generalizing s with
  | nil => exact ⟨s, [], rfl, hs⟩
  | cons o os ih =>
    obtain ⟨mid, r, hst, hmid, hrs⟩ := h
    obtain ⟨s', rs, hrun, hs'⟩ := ih hrs hmid
    refine ⟨s', r :: rs, ?_, hs'⟩
    rw [runOps, hst]
    simp [hrun]

theorem runOps_simulates {astep : A → O → A × R} {Rel : S → A → Prop} (hsim : ∀ s a o, Rel s a → ok s o →
      ∃ s', step s o = some (s', (astep a o).2) ∧ Rel s' (astep a o).1)
    {a : A} (h : Rel s a) (hos : OpsMeet step ok s os) :
    ∃ s', runOps step s os = some (s', (runAbstract astep a os).2) ∧ Rel s' (runAbstract astep a os).1 := by
  induction os generalizing s a with
  | nil => exact ⟨s, rfl, h⟩
  | cons o os ih =>
    obtain ⟨s', hst, hrel⟩ := hsim s a o h hos.1
    obtain ⟨s'', hrun, hrel'⟩ := ih hrel (hos.2 s' _ hst)
    refine ⟨s'', ?_, hrel'⟩
    rw [runOps, hst]
    simp only [hrun]
    rfl

/-- Two systems in step, whose results agree exactly where the condition holds. -/
theorem runAbstract_eq_iff {step : S → O → S × R} {astep : A → O → A × R} (Rel : S → A → Prop)
    (hkp : ∀ s a o, Rel s a → Rel (step s o).1 (astep a o).1)
    (hvalue : ∀ s a o, Rel s a → ((step s o).2 = (astep a o).2 ↔ ok s o)) {a : A} (h : Rel s a) :
    (runAbstract step s os).2 = (runAbstract astep a os).2 ↔
      OpsMeet (fun s o => some (step s o)) ok s os := by
  induction os generalizing s a with
  | nil => exact iff_of_true rfl trivial
  | cons o os ih =>
    show _ :: _ = _ :: _ ↔ _
    rw [List.cons.injEq, hvalue s a o h, ih (hkp s a o h)]
    refine and_congr_right fun _ => ⟨fun hrs _ _ hst => ?_, fun hrs => hrs _ _ rfl⟩
    rw [Option.some.injEq] at hst
    rwa [hst] at hrs

end Skjegg.Lib
