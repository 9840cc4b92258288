import Mathlib.Logic.Relation
import Mathlib.Data.List.Nodup
import Mathlib.Tactic

/-!
# Code with labels

Straight code of actions with jumps and branches to labels.  What is executed is the rest of the code, and a
jump goes on with the code from its label.  A run is followed until it comes to one of a set of labels.
-/

namespace Skjegg.Lib

/-- An instruction, over actions and tests on a state. -/
inductive LabelInsn (A T : Type)
  | act (a : A)
  | branch (t : T) (l : Nat)
  | jump (l : Nat)
  | label (l : Nat)

namespace LabelCode

variable {A T S : Type}

def labels : List (LabelInsn A T) → List Nat
  | [] => []
  | .label l :: code => l :: labels code
  | _ :: code => labels code

def findLabel (l : Nat) : List (LabelInsn A T) → Option (List (LabelInsn A T))
  | [] => none
  | .label k :: code => if k = l then some (.label k :: code) else findLabel l code
  | _ :: code => findLabel l code

/-- One instruction, in a program that jumps look their labels up in. -/
def step (act : A → S → S) (test : T → S → Bool) (prog : List (LabelInsn A T)) :
    List (LabelInsn A T) × S → Option (List (LabelInsn A T) × S)
  | ([], _) => none
  | (.act a :: code, s) => some (code, act a s)
  | (.branch t l :: code, s) =>
    if test t s then (findLabel l prog).map fun code => (code, s) else some (code, s)
  | (.jump l :: _, s) => (findLabel l prog).map fun code => (code, s)
  | (.label _ :: code, s) => some (code, s)

def AtStop (stops : Set Nat) (code : List (LabelInsn A T)) (l : Nat) : Prop :=
  l ∈ stops ∧ ∃ rest, code = .label l :: rest

/-- A run comes to one of the labels, and the place it comes to is the first with one. -/
inductive Arrives (act : A → S → S) (test : T → S → Bool) (prog : List (LabelInsn A T))
    (stops : Set Nat) : List (LabelInsn A T) × S → List (LabelInsn A T) × S → Prop
  | stop {c : List (LabelInsn A T) × S} {l : Nat} (h : AtStop stops c.1 l) :
      Arrives act test prog stops c c
  | next {c c' d : List (LabelInsn A T) × S} (hgo : ∀ l, ¬ AtStop stops c.1 l)
      (hstep : step act test prog c = some c') (h : Arrives act test prog stops c' d) :
      Arrives act test prog stops c d

section Labels

@[simp]
theorem labels_append (p q : List (LabelInsn A T)) : labels (p ++ q) = labels p ++ labels q := by
  induction p with
  | nil => rfl
  | cons i p ih => cases i <;> simp [labels, ih]

theorem findLabel_append {l : Nat} {p q : List (LabelInsn A T)} (h : l ∉ labels p) :
    findLabel l (p ++ q) = findLabel l q := by
  induction p with
  | nil => rfl
  | cons i p ih =>
    cases i with
    | label k =>
      simp only [labels, List.mem_cons, not_or] at h
      simp [findLabel, Ne.symm h.1, ih h.2]
    | act | branch | jump => exact ih h

theorem findLabel_of_nodup {l : Nat} {prog p q : List (LabelInsn A T)} (hpg : prog = p ++ .label l :: q)
    (hnd : (labels prog).Nodup) : findLabel l prog = some (.label l :: q) := by
  subst hpg
  rw [labels_append, labels, List.nodup_append] at hnd
  have hp : l ∉ labels p := fun h => hnd.2.2 l h l List.mem_cons_self rfl
  rw [findLabel_append hp]
  simp [findLabel]

theorem findLabel_of_mem {l : Nat} {prog : List (LabelInsn A T)} (h : l ∈ labels prog) :
    ∃ rest, findLabel l prog = some (.label l :: rest) := by
  induction prog with
  | nil => cases h
  | cons i prog ih =>
    cases i with
    | label k =>
      by_cases hk : k = l
      · subst hk
        exact ⟨prog, by simp [findLabel]⟩
      have hrs : l ∈ labels prog := by
        rcases List.mem_cons.mp h with h | h
        · exact absurd h.symm hk
        · exact h
      simpa [findLabel, hk] using ih hrs
    | act | branch | jump => exact ih h

end Labels

section Arrives

variable {act : A → S → S} {test : T → S → Bool} {prog : List (LabelInsn A T)} {stops : Set Nat}
  {c d e : List (LabelInsn A T) × S}

theorem Arrives.unique (h : Arrives act test prog stops c d) (h' : Arrives act test prog stops c e) :
    d = e := by
  induction h with
  | stop hsp =>
    cases h' with
    | stop _ => rfl
    | next hgo => exact absurd hsp (hgo _)
  | next hgo hst _ ih =>
    cases h' with
    | stop hsp => exact absurd hsp (hgo _)
    | next _ hst' h' =>
      rw [hst] at hst'
      cases hst'
      exact ih h'

theorem Arrives.trans {more : Set Nat} (h : Arrives act test prog more c d) (hmo : stops ⊆ more)
    (hrs : Arrives act test prog stops d e) : Arrives act test prog stops c e := by
  induction h with
  | stop _ => exact hrs
  | next hgo hst _ ih => exact .next (fun k hk => hgo k ⟨hmo hk.1, hk.2⟩) hst (ih hrs)

end Arrives

end LabelCode

end Skjegg.Lib
