import Mathlib.Tactic

/-!
# Linked lists in memory

Lists threaded through the nodes they hold, as free lists are: each node has the address of the
next one, and 0 ends the list.  The memory is seen through the field that holds the link, so
these facts serve any layout.
-/

namespace Skjegg.Lib

open Function
open List

/-- From `a`, the links lead through exactly the nodes of the list and then to 0. -/
def Linked (next : Nat → Nat) : Nat → List Nat → Prop
  | a, [] => a = 0
  | a, b :: l => a = b ∧ b ≠ 0 ∧ Linked next (next b) l

namespace Linked

variable {next next' : Nat → Nat} {a b p : Nat} {l xs ys : List Nat}

theorem head_eq_zero (h : Linked next a l) : a = 0 ↔ l = [] := by
  cases l with
  | nil => exact ⟨fun _ => rfl, fun _ => h⟩
  | cons b l =>
    obtain ⟨rfl, hne, -⟩ := h
    exact ⟨fun h0 => absurd h0 hne, fun hnil => absurd hnil (cons_ne_nil _ _)⟩

theorem congr (h : Linked next a l) (hsm : ∀ b ∈ l, next' b = next b) : Linked next' a l := by
  induction l generalizing a with
  | nil => exact h
  | cons b l ih =>
    obtain ⟨rfl, hne, hl⟩ := h
    refine ⟨rfl, hne, ?_⟩
    rw [hsm a mem_cons_self]
    exact ih hl fun c hc => hsm c (mem_cons_of_mem _ hc)

theorem push (h : Linked next a l) (hb : b ≠ 0) (hlink : next' b = a)
    (hsm : ∀ c ∈ l, next' c = next c) : Linked next' b (b :: l) :=
  ⟨rfl, hb, hlink ▸ h.congr hsm⟩

theorem drop (h : Linked next a (xs ++ b :: ys)) : b ≠ 0 ∧ Linked next (next b) ys := by
  induction xs generalizing a with
  | nil => exact h.2
  | cons c xs ih => exact ih h.2.2

theorem unlink (h : Linked next a (xs ++ p :: b :: ys)) (hlink : next' p = next b)
    (hsm : ∀ c ∈ xs ++ ys, next' c = next c) : Linked next' a (xs ++ p :: ys) := by
  induction xs generalizing a with
  | nil =>
    obtain ⟨rfl, hp, -, -, hl⟩ := h
    refine ⟨rfl, hp, ?_⟩
    rw [hlink]
    exact hl.congr hsm
  | cons c xs ih =>
    obtain ⟨rfl, hne, hl⟩ := h
    refine ⟨rfl, hne, ?_⟩
    rw [hsm a mem_cons_self]
    exact ih hl fun d hd => hsm d (mem_cons_of_mem _ hd)

end Linked

/-! ## Both ways -/

/-- A list linked both ways: from `a`, whose predecessor is `prev`, links lead through the nodes and
then to 0, and back links to the node before. -/
def DLinked (fwd bwd : Nat → Nat) : Nat → Nat → List Nat → Prop
  | _, a, [] => a = 0
  | prev, a, b :: l => a = b ∧ b ≠ 0 ∧ bwd b = prev ∧ DLinked fwd bwd b (fwd b) l

namespace DLinked

variable {fwd fwd' bwd bwd' : Nat → Nat} {prev a b : Nat} {l xs ys : List Nat}

theorem linked (h : DLinked fwd bwd prev a l) : Linked fwd a l := by
  induction l generalizing prev a with
  | nil => exact h
  | cons b l ih => exact ⟨h.1, h.2.1, ih h.2.2.2⟩

theorem congr (h : DLinked fwd bwd prev a l) (hfwd : ∀ b ∈ l, fwd' b = fwd b)
    (hbwd : ∀ b ∈ l, bwd' b = bwd b) : DLinked fwd' bwd' prev a l := by
  induction l generalizing prev a with
  | nil => exact h
  | cons b l ih =>
    obtain ⟨rfl, hne, hprev, hl⟩ := h
    refine ⟨rfl, hne, (hbwd a mem_cons_self).trans hprev, ?_⟩
    rw [hfwd a mem_cons_self]
    exact ih hl (fun c hc => hfwd c (mem_cons_of_mem _ hc)) fun c hc =>
      hbwd c (mem_cons_of_mem _ hc)

theorem rehead (h : DLinked fwd bwd prev a l) {prev' : Nat} (ha : a ≠ 0 → bwd' a = prev')
    (hfwd : ∀ b ∈ l, fwd' b = fwd b) (hbwd : ∀ b ∈ l, b ≠ a → bwd' b = bwd b) (hl : l.Nodup) :
    DLinked fwd' bwd' prev' a l := by
  cases l with
  | nil => exact h
  | cons b l =>
    obtain ⟨rfl, hne, -, htl⟩ := h
    refine ⟨rfl, hne, ha hne, ?_⟩
    rw [hfwd a mem_cons_self]
    refine htl.congr (fun c hc => hfwd c (mem_cons_of_mem _ hc)) fun c hc => ?_
    exact hbwd c (mem_cons_of_mem _ hc) fun heq => (nodup_cons.mp hl).1 (heq ▸ hc)

theorem push (h : DLinked fwd bwd 0 a l) (hb : b ≠ 0) (hlink : fwd' b = a) (hbk : bwd' b = 0)
    (ha : a ≠ 0 → bwd' a = b) (hfwd : ∀ c ∈ l, fwd' c = fwd c)
    (hbwd : ∀ c ∈ l, c ≠ a → bwd' c = bwd c) (hl : l.Nodup) : DLinked fwd' bwd' 0 b (b :: l) :=
  ⟨rfl, hb, hbk, hlink ▸ h.rehead ha hfwd hbwd hl⟩

theorem links (h : DLinked fwd bwd prev a (xs ++ b :: ys)) :
    b ≠ 0 ∧ bwd b = xs.getLastD prev ∧ DLinked fwd bwd b (fwd b) ys := by
  induction xs generalizing prev a with
  | nil => exact ⟨h.2.1, h.2.2.1, h.2.2.2⟩
  | cons c xs ih =>
    obtain ⟨hb, hbk, hrs⟩ := ih h.2.2.2
    refine ⟨hb, hbk.trans ?_, hrs⟩
    cases xs <;> rfl

/-- A node taken out: the node before it, or the head, is led past it, and the node after it is led
back past it. -/
theorem unlink (h : DLinked fwd bwd prev a (xs ++ b :: ys)) (hnd : (xs ++ b :: ys).Nodup)
    (hp : ∀ p, xs.getLast? = some p → fwd' p = fwd b) (hf : fwd b ≠ 0 → bwd' (fwd b) = bwd b)
    (hfwd : ∀ c ∈ xs ++ ys, xs.getLast? ≠ some c → fwd' c = fwd c)
    (hbwd : ∀ c ∈ xs ++ ys, c ≠ fwd b → bwd' c = bwd c) :
    DLinked fwd' bwd' prev (if xs = [] then fwd b else a) (xs ++ ys) := by
  induction xs generalizing prev a with
  | nil =>
    obtain ⟨-, -, hprev, hrs⟩ := h
    refine hrs.rehead (fun h0 => (hf h0).trans hprev) (fun c hc => hfwd c hc (by simp)) hbwd ?_
    exact (nodup_cons.mp hnd).2
  | cons c xs ih =>
    obtain ⟨rfl, hne, hprev, hrs⟩ := h
    have hnot := (nodup_cons.mp hnd).1
    have hls : (a :: xs).getLast? = some (xs.getLast?.getD a) := getLast?_cons
    -- what follows `b` is null or a node behind `a`
    have hfb : a ≠ fwd b := by
      obtain ⟨-, -, hl2⟩ := hrs.links
      cases ys with
      | nil => exact fun heq => hne (heq.trans hl2)
      | cons c ys =>
        rw [hl2.1]
        rintro rfl
        exact hnot (by simp)
    refine ⟨rfl, hne, (hbwd a (by simp) hfb).trans hprev, ?_⟩
    have htl := ih hrs (nodup_cons.mp hnd).2 ?_ ?_ ?_
    · have hnx : fwd' a = if xs = [] then fwd b else fwd a := by
        split
        · rename_i hnil
          exact hp a (by rw [hnil]; rfl)
        rename_i hcons
        refine hfwd a (by simp) fun heq => ?_
        rw [hls, Option.some.injEq, getLast?_eq_getLast_of_ne_nil hcons] at heq
        exact hnot (mem_append_left _ (heq ▸ getLast_mem hcons))
      rw [hnx]
      exact htl
    · intro p hlp
      exact hp p (by rw [hls, hlp]; rfl)
    · intro c hc hcl
      refine hfwd c (mem_cons_of_mem _ hc) fun heq => ?_
      rw [hls] at heq
      cases hl1 : xs.getLast? with
      | none =>
        rw [hl1] at heq
        injection heq with heq
        rw [show a = c from heq] at hnot
        exact hnot (by
          rcases mem_append.mp hc with hc | hc
          · exact mem_append_left _ hc
          · exact mem_append_right _ (mem_cons_of_mem _ hc))
      | some q =>
        rw [hl1] at heq hcl
        exact hcl heq
    · exact fun c hc => hbwd c (mem_cons_of_mem _ hc)

-- The predecessor of a node is one of the nodes before it, or there is none.
theorem back_cases (h : DLinked fwd bwd 0 a (xs ++ b :: ys)) :
    (xs = [] ∧ bwd b = 0) ∨ (bwd b ≠ 0 ∧ xs.getLast? = some (bwd b)) := by
  obtain ⟨-, hbk, -⟩ := h.links
  rcases eq_nil_or_concat' xs with rfl | ⟨l, p, rfl⟩
  · exact Or.inl ⟨rfl, hbk⟩
  rw [getLastD_concat] at hbk
  rw [append_assoc, singleton_append] at h
  rw [hbk]
  exact Or.inr ⟨h.links.1, getLast?_concat ..⟩

/-- The two stores that take a node out of a list; writing the link of node 0 stands for moving the
head. -/
theorem unlink_update (h : DLinked fwd bwd 0 a (xs ++ b :: ys)) (hnd : (xs ++ b :: ys).Nodup) :
    DLinked (update fwd (bwd b) (fwd b)) (update bwd (fwd b) (bwd b)) 0
      (if bwd b = 0 then fwd b else a) (xs ++ ys) := by
  have hhd : (if bwd b = 0 then fwd b else a) = if xs = [] then fwd b else a := by
    rcases h.back_cases with ⟨hnil, hz⟩ | ⟨hne, hls⟩
    · rw [if_pos hz, if_pos hnil]
    · rw [if_neg hne, if_neg]
      rintro rfl
      cases hls
  rw [hhd]
  apply h.unlink hnd
  · intro p hp
    rcases h.back_cases with ⟨rfl, -⟩ | ⟨-, hls⟩
    · cases hp
    rw [hls] at hp
    injection hp with hp
    rw [← hp]
    exact update_self ..
  · exact fun _ => update_self ..
  · intro c hc hls
    apply update_of_ne
    rintro rfl
    rcases h.back_cases with ⟨rfl, hz⟩ | ⟨-, heq⟩
    · -- a node is not 0
      obtain ⟨m1, m2, hm⟩ := append_of_mem hc
      obtain ⟨-, -, -, hrs⟩ := h
      rw [nil_append] at hm
      rw [hm] at hrs
      exact hrs.links.1 hz
    · exact hls heq
  · exact fun c _ hne => update_of_ne hne ..

theorem push_update (h : DLinked fwd bwd 0 a l) (hl : l.Nodup) (hb : b ≠ 0) (hnew : b ∉ l) :
    DLinked (update fwd b a) (update (update bwd b 0) a b) 0 b (b :: l) := by
  have hne : ∀ c ∈ l, c ≠ b := fun c hc heq => hnew (heq ▸ hc)
  have hba : b ≠ a := by
    cases l with
    | nil => exact fun heq => hb (heq.trans h)
    | cons c l => exact fun heq => hnew (by rw [heq, h.1]; exact mem_cons_self)
  refine h.push hb (update_self ..) ?_ ?_ ?_ ?_ hl
  · rw [update_of_ne hba]
    exact update_self ..
  · exact fun _ => update_self ..
  · exact fun c hc => update_of_ne (hne c hc) ..
  · intro c hc hca
    rw [update_of_ne hca]
    exact update_of_ne (hne c hc) ..

end DLinked

end Skjegg.Lib
