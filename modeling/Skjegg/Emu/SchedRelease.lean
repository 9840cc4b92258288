import Skjegg.Emu.SchedConfine

/-!
# Who frees a CPU

A process owns its CPU until it is a zombie; a zombie's CPU has been freed. `sched_destroy` frees
that of every process in the table, and a run cut short by the instruction limit may leave a zombie.
-/

namespace Skjegg.Emu

open Skjegg.Lib Function List Machine
open Prog (ensures_pure ensures_bind_any)

variable {i : Nat} {p : Proc} {slots : List Nat} {M : Machine} {root : Proc}

namespace Sched

def NoZombie (S : Sched) : Prop := ∀ i p, S.procs i = some p → p.zombie = false

structure Owned (S : Sched) : Prop where
  inj : ∀ i j p q, S.procs i = some p → S.procs j = some q → p.cpu = q.cpu → i = j
  lt : ∀ i p, S.procs i = some p → p.cpu < S.made
  held : ∀ i p, S.procs i = some p → p.zombie = false → S.freed.count p.cpu = 0
  once : ∀ c, c < S.made → (∀ i p, S.procs i = some p → p.cpu = c → p.zombie = true) → S.freed.count c = 1
  fresh : ∀ c, S.made ≤ c → S.freed.count c = 0
  root : ∀ p, S.procs 0 = some p → p.zombie = false

variable {S S' : Sched} {ok : Proc → Prop} {gone : Nat → Prop}

theorem Calm.origin (h : Calm S S') {q : Proc} (hq : S'.procs i = some q) :
    ∃ p, S.procs i = some p ∧ p.Like q := by
  have hrel := h.procs i
  rw [hq] at hrel
  generalize S.procs i = r at hrel
  cases hrel with
  | some hpq => exact ⟨_, rfl, hpq⟩

theorem Owned.calm (hS : S.Owned) (h : Calm S S') : S'.Owned := by
  constructor
  · intro i j p' q' hp' hq' hcpu
    obtain ⟨p, hp, hlk⟩ := h.origin hp'
    obtain ⟨q, hq, hlk'⟩ := h.origin hq'
    exact hS.inj i j p q hp hq (hlk.cpu ▸ hlk'.cpu ▸ hcpu)
  · intro i p' hp'
    obtain ⟨p, hp, hlk⟩ := h.origin hp'
    rw [hlk.cpu, h.made]
    exact hS.lt i p hp
  · intro i p' hp' hz
    obtain ⟨p, hp, hlk⟩ := h.origin hp'
    rw [hlk.cpu, h.freed]
    exact hS.held i p hp (hlk.zombie ▸ hz)
  · intro c hc hall
    rw [h.freed]
    apply hS.once c (h.made ▸ hc)
    intro i p hp hcpu
    obtain ⟨q, hq, hlk⟩ := h.lookup hp
    exact hlk.zombie ▸ hall i q hq (hlk.cpu.trans hcpu)
  · intro c hc
    rw [h.freed]
    exact hS.fresh c (h.made ▸ hc)
  · intro p' hp'
    obtain ⟨p, hp, hlk⟩ := h.origin hp'
    rw [hlk.zombie]
    exact hS.root p hp

theorem update_some {f : Nat → Option Proc} {j : Nat} {r : Option Proc} {q : Proc}
    (h : update f i r j = some q) : (j = i ∧ r = some q) ∨ (j ≠ i ∧ f j = some q) := by
  by_cases hj : j = i
  · subst hj
    rw [update_self] at h
    exact .inl ⟨rfl, h⟩
  · rw [update_of_ne hj] at h
    exact .inr ⟨hj, h⟩

theorem Owned.adopt (hS : S.Owned) {c : Proc} (h : Fresh S c S') : S'.Owned := by
  have hcs : ∀ j q, S'.procs j = some q → (j = c.slot ∧ q = c) ∨ (j ≠ c.slot ∧ S.procs j = some q) := by
    intro j q hq
    rw [h.procs] at hq
    rcases update_some hq with ⟨hj, hc⟩ | hold
    · exact .inl ⟨hj, (Option.some.inj hc).symm⟩
    · exact .inr hold
  have hsf : S'.procs c.slot = some c := by rw [h.procs, update_self]
  constructor
  · intro i j p q hp hq hcpu
    rcases hcs i p hp with ⟨rfl, rfl⟩ | ⟨hi, hp⟩ <;> rcases hcs j q hq with ⟨rfl, rfl⟩ | ⟨hj, hq⟩
    · rfl
    · exact absurd (hS.lt j q hq) (by rw [← hcpu, h.cpu]; exact lt_irrefl _)
    · exact absurd (hS.lt i p hp) (by rw [hcpu, h.cpu]; exact lt_irrefl _)
    · exact hS.inj i j p q hp hq hcpu
  · intro i p hp
    rw [h.made]
    rcases hcs i p hp with ⟨rfl, rfl⟩ | ⟨-, hp⟩
    · rw [h.cpu]
      exact Nat.lt_succ_self _
    · exact Nat.lt_succ_of_lt (hS.lt i p hp)
  · intro i p hp hz
    rw [h.freed]
    rcases hcs i p hp with ⟨rfl, rfl⟩ | ⟨-, hp⟩
    · rw [h.cpu]
      exact hS.fresh _ (le_refl _)
    · exact hS.held i p hp hz
  · intro x hx hall
    rw [h.freed]
    rcases Nat.lt_succ_iff_lt_or_eq.mp (h.made ▸ hx) with hlt | rfl
    · apply hS.once x hlt
      intro i p hp hcpu
      apply hall i p _ hcpu
      rw [h.procs, update_of_ne]
      · exact hp
      · rintro rfl
        rw [h.free] at hp
        cases hp
    · -- the new process owns the new CPU
      have hz := hall _ c hsf h.cpu
      rw [h.zombie] at hz
      cases hz
  · intro x hx
    rw [h.freed]
    exact hS.fresh x (by rw [h.made] at hx; omega)
  · intro p hp
    rcases hcs 0 p hp with ⟨-, rfl⟩ | ⟨-, hp⟩
    · exact h.zombie
    · exact hS.root p hp

theorem count_append_singleton (l : List Nat) (a c : Nat) :
    (l ++ [a]).count c = l.count c + if a = c then 1 else 0 := by
  rw [count_append, count_singleton]
  simp

theorem Owned.waste (hS : S.Owned) (hpr : S'.procs = S.procs) (hma : S'.made = S.made + 1)
    (hfr : S'.freed = S.freed ++ [S.made]) : S'.Owned := by
  constructor
  · rw [hpr]
    exact hS.inj
  · intro i p hp
    rw [hma]
    exact Nat.lt_succ_of_lt (hS.lt i p (hpr ▸ hp))
  · intro i p hp hz
    rw [hpr] at hp
    have hlt := hS.lt i p hp
    rw [hfr, count_append_singleton, hS.held i p hp hz, if_neg (by omega)]
  · intro c hc hall
    rw [hpr] at hall
    rw [hfr, count_append_singleton]
    rcases Nat.lt_succ_iff_lt_or_eq.mp (hma ▸ hc) with hlt | rfl
    · rw [hS.once c hlt hall, if_neg (by omega)]
    · rw [hS.fresh _ (le_refl _), if_pos rfl]
  · intro c hc
    rw [hfr, count_append_singleton, hS.fresh c (by omega), if_neg (by omega)]
  · rw [hpr]
    exact hS.root

theorem Owned.release (hS : S.Owned) (hp : S.procs i = some p) {r : Option Proc}
    (hr : ∀ q, r = some q → i ≠ 0 ∧ q.cpu = p.cpu ∧ q.zombie = true)
    (hpr : S'.procs = update S.procs i r) (hma : S'.made = S.made)
    (hfr : S'.freed = S.freed ++ (if p.zombie then [] else [p.cpu])) : S'.Owned := by
  have hcs : ∀ j q, S'.procs j = some q →
      (j = i ∧ i ≠ 0 ∧ q.cpu = p.cpu ∧ q.zombie = true) ∨ (j ≠ i ∧ S.procs j = some q) := by
    intro j q hq
    rw [hpr] at hq
    rcases update_some hq with ⟨hj, hq⟩ | hold
    · exact .inl ⟨hj, hr q hq⟩
    · exact .inr hold
  have hoth : ∀ c, p.cpu ≠ c → S'.freed.count c = S.freed.count c := by
    intro c hc
    rw [hfr]
    split
    · rw [append_nil]
    · rw [count_append_singleton, if_neg hc, add_zero]
  have hcpu : ∀ j q, S'.procs j = some q → ∃ p, S.procs j = some p ∧ q.cpu = p.cpu := by
    intro j q hq
    rcases hcs j q hq with ⟨rfl, -, hcpu, -⟩ | ⟨-, hq⟩
    · exact ⟨p, hp, hcpu⟩
    · exact ⟨q, hq, rfl⟩
  constructor
  · intro j k q q' hq hq' hsm
    obtain ⟨p1, hp1, h1⟩ := hcpu j q hq
    obtain ⟨p2, hp2, h2⟩ := hcpu k q' hq'
    exact hS.inj j k p1 p2 hp1 hp2 (h1 ▸ h2 ▸ hsm)
  · intro j q hq
    obtain ⟨p1, hp1, h1⟩ := hcpu j q hq
    rw [h1, hma]
    exact hS.lt j p1 hp1
  · intro j q hq hz
    rcases hcs j q hq with ⟨-, -, -, hzom⟩ | ⟨hj, hq⟩
    · rw [hzom] at hz
      cases hz
    · rw [hoth _ fun h => hj (hS.inj j i q p hq hp h.symm)]
      exact hS.held j q hq hz
  · intro c hc hall
    by_cases hpc : p.cpu = c
    · subst hpc
      rw [hfr]
      split
      · next hz =>
        -- it was a zombie, so its CPU was freed before
        rw [append_nil]
        apply hS.once _ (hma ▸ hc)
        intro j q hq hsm
        cases hS.inj j i q p hq hp hsm
        rw [hp] at hq
        cases hq
        exact hz
      · next hz =>
        rw [count_append_singleton, hS.held i p hp (Bool.eq_false_iff.mpr hz), if_pos rfl]
    · rw [hoth c hpc]
      apply hS.once c (hma ▸ hc)
      intro j q hq hsm
      apply hall j q _ hsm
      rw [hpr, update_of_ne]
      · exact hq
      rintro rfl
      rw [hp] at hq
      cases hq
      exact hpc hsm
  · intro c hc
    rw [hma] at hc
    have hlt := hS.lt i p hp
    rw [hoth c (by omega)]
    exact hS.fresh c hc
  · intro q hq
    rcases hcs 0 q hq with ⟨hi, hne, -, -⟩ | ⟨-, hq⟩
    · exact absurd hi.symm hne
    · exact hS.root q hq

theorem Owned.step (hS : S.Owned) (h : TableStep ok gone S S') : S'.Owned := by
  cases h with
  | calm h => exact hS.calm h
  | adopt c h _ _ => exact hS.adopt h
  | waste hpr hma hfr _ => exact hS.waste hpr hma hfr
  | bury i p q _ hi hp hz hsm hq hpr hma hfr _ =>
    refine hS.release hp (fun q' hq' => ?_) hpr hma (by rw [hfr, hz]; rfl)
    cases hq'
    exact ⟨hi, hsm.cpu, hq⟩
  | reap i p _ hp hpr hma hfr _ => exact hS.release (r := none) hp (fun _ => nofun) hpr hma hfr

theorem Started.owned (h : S.Started root) : S.Owned := by
  constructor
  · intro i j p q hp hq _
    rw [(h.eq_root hp).1, (h.eq_root hq).1]
  · intro i p hp
    rw [(h.eq_root hp).2, h.cpu, h.made]
    exact one_pos
  · intro i p _ _
    rw [h.freed]
    rfl
  · intro c hc hall
    rw [h.made] at hc
    -- the only CPU is the root's, and the root is no zombie
    have hro := hall 0 root (by rw [h.procs, update_self]) (by rw [h.cpu]; omega)
    rw [h.zombie] at hro
    cases hro
  · intro c _
    rw [h.freed]
    rfl
  · intro p hp
    rw [(h.eq_root hp).2]
    exact h.zombie

/-! ## Shutdown -/

def cpusOf (S : Sched) (slots : List Nat) : List Nat := slots.filterMap fun i => (S.procs i).map Proc.cpu

theorem cpusOf_congr (h : ∀ i ∈ slots, S'.procs i = S.procs i) : S'.cpusOf slots = S.cpusOf slots :=
  filterMap_congr fun i hi => by rw [h i hi]

theorem ensures_procDiscard (S : Sched) (p : Proc) : (S.procDiscard p).Ensures fun S' =>
    S'.procs = update S.procs p.slot none ∧ S'.freed = S.freed ++ [p.cpu] := by
  refine ensures_bind_any fun g => ensures_pure ⟨?_, rfl⟩
  show update (update S.procs p.slot _) p.slot none = _
  rw [update_idem]

theorem ensures_destroyLoop (hS : ∀ i p, S.procs i = some p → p.slot = i) (hnd : slots.Nodup) :
    (slots.foldlM destroySlot S).Ensures fun S' => S'.freed = S.freed ++ S.cpusOf slots := by
  induction slots generalizing S with
  | nil => exact ensures_pure (append_nil _).symm
  | cons i slots ih =>
    obtain ⟨hi, hrs⟩ := nodup_cons.mp hnd
    rw [foldlM_cons]
    unfold destroySlot
    cases hp : S.procs i with
    | none =>
      have hsk : S.cpusOf (i :: slots) = S.cpusOf slots := by
        unfold cpusOf
        rw [filterMap_cons_none (by rw [hp]; rfl)]
      rw [hsk]
      exact ih hS hrs
    | some p =>
      have hta : S.cpusOf (i :: slots) = p.cpu :: S.cpusOf slots := by
        unfold cpusOf
        rw [filterMap_cons_some (by rw [hp]; rfl)]
      refine (ensures_procDiscard S p).bind fun S1 hS1 => ?_
      rw [hS i p hp] at hS1
      -- the other slots still hold what they held
      have hsm : ∀ j ∈ slots, S1.procs j = S.procs j := by
        intro j hj
        rw [hS1.1, update_of_ne]
        rintro rfl
        exact hi hj
      have hsl : ∀ j q, S1.procs j = some q → q.slot = j := by
        intro j q hq
        rw [hS1.1] at hq
        rcases update_some hq with ⟨-, hnone⟩ | ⟨-, hq⟩
        · cases hnone
        · exact hS j q hq
      refine (ih hsl hrs).mono fun S2 hS2 => ?_
      rw [hS2, hS1.2, cpusOf_congr hsm, hta, append_assoc]
      rfl

theorem Owned.nodup_cpusOf (hS : S.Owned) (h : slots.Nodup) : (S.cpusOf slots).Nodup := by
  refine h.filterMap fun i j c hi hj => ?_
  obtain ⟨p, hp, hpc⟩ := Option.map_eq_some_iff.mp hi
  obtain ⟨q, hq, hqc⟩ := Option.map_eq_some_iff.mp hj
  exact hS.inj i j p q hp hq (hpc.trans hqc.symm)

theorem mem_cpusOf {c : Nat} : c ∈ S.cpusOf slots ↔ ∃ i ∈ slots, ∃ p, S.procs i = some p ∧ p.cpu = c := by
  simp only [cpusOf, mem_filterMap, Option.map_eq_some_iff]

theorem Owned.freed_once_iff (hS : S.Owned) (htidy : S.Tidy) :
    (∀ c, c < S.made → (S.freed ++ S.cpusOf (List.range S.nprocs)).count c = 1) ↔ S.NoZombie := by
  have hmem : ∀ i p, S.procs i = some p → p.cpu ∈ S.cpusOf (range S.nprocs) := by
    intro i p hp
    exact mem_cpusOf.mpr ⟨i, mem_range.mpr (htidy.lt i p hp), p, hp, rfl⟩
  have hone : ∀ i p, S.procs i = some p → (S.cpusOf (range S.nprocs)).count p.cpu = 1 :=
    fun i p hp => count_eq_one_of_mem (hS.nodup_cpusOf nodup_range) (hmem i p hp)
  constructor
  · intro hall i p hp
    by_contra hz
    rw [Bool.not_eq_false] at hz
    -- a zombie's CPU has been freed before, and is freed again
    have hbef : S.freed.count p.cpu = 1 := by
      apply hS.once _ (hS.lt i p hp)
      intro j q hq hsm
      cases hS.inj j i q p hq hp hsm
      rw [hp] at hq
      cases hq
      exact hz
    have htwice := hall _ (hS.lt i p hp)
    rw [count_append, hbef, hone i p hp] at htwice
    cases htwice
  · intro hno c hc
    rw [count_append]
    by_cases hin : c ∈ S.cpusOf (range S.nprocs)
    · obtain ⟨i, -, p, hp, rfl⟩ := mem_cpusOf.mp hin
      rw [hone i p hp, hS.held i p hp (hno i p hp)]
    · rw [count_eq_zero_of_not_mem hin, hS.once c hc]
      intro i p hp hsm
      exact absurd (hsm ▸ hmem i p hp) hin

/-! ## Runs that end by themselves -/

def HasLive (S : Sched) : Prop := ∃ i p, S.procs i = some p ∧ p.done = false

def Awaited (S : Sched) (i : Nat) : Prop := ∀ p, S.procs i = some p → p.done = true → S.HasLive

theorem HasLive.reap (h : S.HasLive) (hp : S.procs i = some p)
    (hdn : p.done = true) (hpr : S'.procs = update S.procs i none) : S'.HasLive := by
  obtain ⟨j, q, hq, hlv⟩ := h
  refine ⟨j, q, ?_, hlv⟩
  rw [hpr, update_of_ne]
  · exact hq
  rintro rfl
  rw [hp] at hq
  cases hq
  rw [hdn] at hlv
  cases hlv

theorem Awaited.reap {j : Nat} (h : S.Awaited j) (hp : S.procs i = some p)
    (hdn : p.done = true) (hpr : S'.procs = update S.procs i none) : S'.Awaited j := by
  intro q hq hqdone
  rw [hpr] at hq
  rcases update_some hq with ⟨-, hnone⟩ | ⟨-, hq⟩
  · cases hnone
  · exact (h q hq hqdone).reap hp hdn hpr

theorem Tidy.awaited_reapOrphan (hS : S.Tidy) (i : Nat) : (reapOrphan S i).Ensures fun S' =>
    S'.Awaited i ∧ ∀ j, S.Awaited j → S'.Awaited j := by
  unfold reapOrphan
  split
  · next hnone =>
    refine ensures_pure ⟨fun p hp => ?_, fun _ h => h⟩
    rw [hnone] at hp
    cases hp
  rename_i c hc
  split
  · next hreap =>
    refine (hS.reaped_reapChild hc).mono fun S' h => ⟨fun p hp => ?_, fun j hj => ?_⟩
    · rw [h.procs, update_self] at hp
      cases hp
    · exact hj.reap hc hreap.1 h.procs
  · next hkp =>
    refine ensures_pure ⟨fun p hp hdn => ?_, fun _ h => h⟩
    rw [hc] at hp
    cases hp
    -- it was kept for its parent, which is there and not done
    have hpar := fun h => hkp ⟨hdn, h⟩
    cases hq : S.procFromHandle _ with
    | none =>
      rw [hq] at hpar
      exact absurd rfl hpar
    | some q =>
      rw [hq] at hpar
      obtain ⟨j, hj, -⟩ := procFromHandle_some hq
      exact ⟨j, q, hj, Bool.eq_false_iff.mpr hpar⟩

theorem Tidy.awaited_reapLoop (hS : S.Tidy) (slots : List Nat) :
    (slots.foldlM reapOrphan S).Ensures fun S' =>
      (∀ j, S.Awaited j → S'.Awaited j) ∧ ∀ i ∈ slots, S'.Awaited i := by
  induction slots generalizing S with
  | nil => exact ensures_pure ⟨fun _ h => h, nofun⟩
  | cons i slots ih =>
    have hst : (reapOrphan S i).Ensures (TableStep (fun _ => True) (fun _ => True) S) :=
      hS.ensures_reapOrphan trivial
    refine ((hS.awaited_reapOrphan i).and hst).bind fun S1 hS1 => ?_
    obtain ⟨⟨hi, hkp⟩, hS1⟩ := hS1
    refine (ih (hS1.tidy hS)).mono fun S2 hS2 => ⟨fun j hj => hS2.1 j (hkp j hj), fun j hj => ?_⟩
    rcases mem_cons.mp hj with rfl | hj
    · exact hS2.1 j hi
    · exact hS2.2 j hj

theorem Tidy.awaited_bookkeep (hS : S.Tidy) : S.bookkeep.Ensures fun S' => ∀ i, i ≠ 0 → S'.Awaited i := by
  refine Prog.Ensures.bind (Q := Evolves (fun _ => True) (fun _ => True) S) ?_ fun S1 h1 => ?_
  · exact hS.ensures_loop fun S1 hS1 i hi => hS1.ensures_zombify trivial (ne_zero_of_mem_childSlots hi)
  have hS1 : S1.wakeWaiters.Tidy := (calm_wakeWaiters S1).tidy (h1.tidy hS)
  refine (hS1.awaited_reapLoop _).mono fun S2 hS2 i hi => ?_
  by_cases hlt : i < S1.wakeWaiters.nprocs
  · apply hS2.2 i
    exact mem_range'_1.mpr (by omega)
  · apply hS2.1 i
    intro p hp
    exact absurd (hS1.lt i p hp) hlt

theorem live_of_hasLive (hS : S.Tidy) (h : S.HasLive) : S.live = true := by
  obtain ⟨i, p, hp, hlv⟩ := h
  unfold Sched.live
  rw [any_eq_true]
  refine ⟨i, mem_range.mpr (hS.lt i p hp), ?_⟩
  rw [hp, Option.map_some, Option.getD_some, hlv]
  rfl

theorem Owned.noZombie (hS : S.Owned) (htidy : S.Tidy) (hawaited : ∀ i, i ≠ 0 → S.Awaited i)
    (hlv : S.live = false) : S.NoZombie := by
  have hdead : ¬S.HasLive := by
    intro h
    rw [live_of_hasLive htidy h] at hlv
    cases hlv
  intro i p hp
  by_cases hi : i = 0
  · exact hS.root p (hi ▸ hp)
  exfalso
  cases hdn : p.done with
  | true => exact hdead (hawaited i hi p hp hdn)
  | false => exact hdead ⟨i, p, hp, hdn⟩

end Sched

/-! ## Runs -/

/-- The account is right, the process in its slice is no zombie, and a run that has ended by itself
leaves none. -/
structure Machine.Accounted (M : Machine) : Prop where
  tidy : M.S.Tidy
  owned : M.S.Owned
  slice : ∀ i, M.phase = .slice i → M.S.Runnable i
  ended : M.phase = .over → M.S.limited = false → M.S.NoZombie

theorem Machine.welcome_any (M : Machine) (ev : Event) : M.Welcome (fun _ => True) ev := by
  cases ev with
  | act a =>
    intro slot _
    cases a with
    | priv nr arg0 arg1 => exact fun p _ => ⟨fun _ _ => trivial, fun _ _ _ _ _ _ => trivial⟩
    | _ => trivial
  | _ => trivial

theorem Machine.Accounted.ended_step (hM : M.Accounted) (ev : Event) :
    (M.step ev).Ensures fun M' => M'.phase = .over → M'.S.limited = false → M'.S.NoZombie := by
  unfold step
  cases ev with
  | tick =>
    dsimp only
    split
    · unfold tick
      split
      · -- only a round after which no process is live ends the run here
        have hev : M.S.bookkeep.Ensures (Sched.Evolves (fun _ => True) (fun _ => True) M.S) :=
          hM.tidy.ensures_bookkeep
        refine (hev.and hM.tidy.awaited_bookkeep).bind fun S1 h1 => ?_
        have hS1 : S1.Tidy ∧ S1.Owned := h1.1.keeps (I := fun S => S.Tidy ∧ S.Owned)
          (fun S S' hst hS => ⟨hst.tidy hS.1, hS.2.step hst⟩) ⟨hM.tidy, hM.owned⟩
        split
        · exact ensures_bind_any fun S2 => ensures_pure nofun
        · next hlv =>
          refine ensures_pure fun _ _ => ?_
          exact hS1.2.noZombie hS1.1 h1.2 (Bool.eq_false_iff.mpr hlv)
      · split
        · exact ensures_pure nofun
        · split
          · exact ensures_pure nofun
          · exact ensures_pure nofun
    · exact ensures_pure hM.ended
  | act a =>
    dsimp only
    split
    · next slot hph =>
      refine ensures_bind_any fun S1 => ensures_pure fun hov => ?_
      rw [hph] at hov
      cases hov
    · exact ensures_pure hM.ended
  | stop reason ran =>
    dsimp only
    split
    · refine ensures_pure fun hov hlimited => ?_
      rw [hlimited] at hov
      cases hov
    · exact ensures_pure hM.ended

theorem Machine.Accounted.slice_step (hM : M.Accounted) (ev : Event) :
    (M.step ev).Ensures fun M' => ∀ i, M'.phase = .slice i → M'.S.Runnable i := by
  unfold step
  cases ev with
  | tick =>
    dsimp only
    split
    · unfold tick
      split
      · refine ensures_bind_any fun S1 => ?_
        split
        · exact ensures_bind_any fun S2 => ensures_pure nofun
        · exact ensures_pure nofun
      split
      · exact ensures_pure nofun
      rename_i p hp
      split
      · exact ensures_pure nofun
      rename_i hrun
      refine ensures_pure fun i hi => ?_
      cases hi
      refine ⟨p, hp, Bool.eq_false_iff.mpr fun hz => hrun ?_⟩
      rw [hM.tidy.done _ p hp hz]
      rfl
    · exact ensures_pure hM.slice
  | act a =>
    dsimp only
    split
    · next slot hph =>
      have hok : Sched.ActWelcome (fun _ => True) M.S slot a := M.welcome_any (.act a) slot hph
      refine (hM.tidy.ensures_perform hok).bind fun S1 h1 => ensures_pure fun i hi => ?_
      rw [hph] at hi
      cases hi
      exact h1.keeps (fun S S' => Sched.Runnable.step fun h => h rfl) (hM.slice slot hph)
    · exact ensures_pure hM.slice
  | stop reason ran =>
    dsimp only
    split
    · refine ensures_pure fun i hi => ?_
      split at hi
      · cases hi
      · cases hi
    · exact ensures_pure hM.slice

theorem Machine.Accounted.step (hM : M.Accounted) (ev : Event) :
    (M.step ev).Ensures Machine.Accounted := by
  have hrest := (hM.slice_step ev).and (hM.ended_step ev)
  refine ((ensures_step hM.tidy (M.welcome_any ev)).and hrest).mono fun M' h => ?_
  have hS := h.1.keeps (I := fun S => S.Tidy ∧ S.Owned)
    (fun S S' hst hS => ⟨hst.tidy hS.1, hS.2.step hst⟩) ⟨hM.tidy, hM.owned⟩
  exact ⟨hS.1, hS.2, h.2.1, h.2.2⟩

theorem Sched.Started.accounted {S : Sched} (h : S.Started root) :
    Machine.Accounted ⟨S, .turn 0⟩ :=
  ⟨h.tidy, h.owned, nofun, nofun⟩

/-- After every run and its shutdown, every CPU ever made has been freed exactly once if and only if
the run left no zombie in the table; a run that ended because every process was done leaves none. -/
theorem Machine.freed_once_iff_noZombie {S : Sched} (hS : S.Started root)
    {evs : List Event} {tr tr' : List (Sigma HostCall.Ans)} {S' : Sched}
    (hrun : Session step (fun _ _ => True) ⟨S, .turn 0⟩ evs tr M)
    (hend : Prog.Runs M.S.schedDestroy tr' S') :
    ((∀ c, c < M.S.made → S'.freed.count c = 1) ↔ M.S.NoZombie) ∧
      (M.phase = .over → M.S.limited = false → M.S.NoZombie) := by
  have hM : M.Accounted := hrun.invariant (fun M ev hM _ => hM.step ev) hS.accounted
  have hfr : S'.freed = M.S.freed ++ M.S.cpusOf (range M.S.nprocs) :=
    Sched.ensures_destroyLoop hM.tidy.slot nodup_range _ _ hend
  rw [hfr]
  exact ⟨hM.owned.freed_once_iff hM.tidy, hM.ended⟩

/-- The root spawns a child, which halts in its first slice and is a zombie until the root halts. -/
def haltEvents : List Event :=
  [.tick, .act (.priv sysSpawn 0x10000 280), .stop .yield 10, .tick, .stop .halt 1, .tick, .tick,
    .stop .halt 1, .tick, .tick]

def haltedSched : Machine := rootRun haltEvents

theorem freed_once_iff_noZombie_halt : haltedSched.S.made = 2 ∧ ∃ tr' S',
    Prog.Runs haltedSched.S.schedDestroy tr' S' ∧
      ∀ c, c < haltedSched.S.made → S'.freed.count c = 1 := by
  refine ⟨by decide +kernel, ?_⟩
  obtain ⟨tr, hrun⟩ : ∃ tr, Session _ _ _ _ tr haltedSched := rootRun_session _
  obtain ⟨tr', S', hend⟩ := Prog.exists_runs HostCall.nonempty_ans haltedSched.S.schedDestroy
  obtain ⟨hiff, hended⟩ := freed_once_iff_noZombie rootSched_started hrun hend
  exact ⟨tr', S', hend, hiff.mpr (hended (by decide +kernel) (by decide +kernel))⟩

/-- In every state a run reaches no CPU has been freed twice, one that was made and not freed belongs
to a process that is no zombie, and no other process has it; and the process that runs is in the table,
is no zombie, and its CPU has not been freed. -/
theorem Machine.cpus_of_run {S : Sched} (hS : S.Started root) {evs tr}
    (hrun : Session step (fun _ _ => True) ⟨S, .turn 0⟩ evs tr M) :
    (∀ c, M.S.freed.count c ≤ 1 ∧ (c < M.S.made ∧ c ∉ M.S.freed ↔
      ∃! i, ∃ p, M.S.procs i = some p ∧ p.cpu = c ∧ p.zombie = false)) ∧
      ∀ i, M.phase = .slice i →
        ∃ p, M.S.procs i = some p ∧ p.zombie = false ∧ p.cpu ∉ M.S.freed := by
  obtain ⟨-, hO, hslice, -⟩ : M.Accounted :=
    hrun.invariant (fun M ev hM _ => hM.step ev) hS.accounted
  refine ⟨fun c => ?_, fun i hi => ?_⟩
  · by_cases hex : ∃ i p, M.S.procs i = some p ∧ p.cpu = c ∧ p.zombie = false
    · obtain ⟨i, p, hp, rfl, hz⟩ := hex
      have h0 := hO.held i p hp hz
      refine ⟨by omega, fun _ => ⟨i, ⟨p, hp, rfl, hz⟩, ?_⟩, fun _ => ⟨hO.lt i p hp, count_eq_zero.mp h0⟩⟩
      rintro j ⟨q, hq, hc, -⟩
      exact hO.inj j i q p hq hp hc
    · rcases lt_or_ge c M.S.made with hlt | hge
      · have h1 := hO.once c hlt fun i p hp hc => by
          by_contra hz
          exact hex ⟨i, p, hp, hc, Bool.eq_false_iff.mpr hz⟩
        exact ⟨h1.le, fun h => absurd h1 (by rw [count_eq_zero.mpr h.2]; decide), fun h => absurd h.exists hex⟩
      · exact ⟨by rw [hO.fresh c hge]; decide, fun h => absurd h.1 hge.not_gt, fun h => absurd h.exists hex⟩
  · obtain ⟨p, hp, hz⟩ := hslice i hi
    exact ⟨p, hp, hz, count_eq_zero.mp (hO.held i p hp hz)⟩

/-- The child is in its slice. -/
def childSched : Machine := rootRun (haltEvents.take 4)

theorem cpus_of_child : (∃! i, ∃ p, childSched.S.procs i = some p ∧ p.cpu = 1 ∧ p.zombie = false) ∧
    ∃ p, childSched.S.procs 1 = some p ∧ p.zombie = false ∧ p.cpu ∉ childSched.S.freed := by
  obtain ⟨tr, hrun⟩ : ∃ tr, Session _ _ _ _ tr childSched := rootRun_session _
  obtain ⟨hcpus, hslice⟩ := cpus_of_run rootSched_started hrun
  exact ⟨(hcpus 1).2.mp (by decide +kernel), hslice 1 (by decide +kernel)⟩

/-! ## A zombie at the limit -/

/-- The root spawns a child and kills it; in the next round the root runs into the limit of
instructions. -/
def limitEvents : List Event :=
  [.tick, .act (.priv sysSpawn 0x10000 280), .act (.priv sysKill 2 9), .stop .yield 10, .tick, .tick,
    .tick, .stop .budget 90]

def limitedSched : Machine := rootRun limitEvents

theorem limitedSched_zombie : limitedSched.phase = .over ∧
    (limitedSched.S.procs 1).map Proc.zombie = some true := by
  decide +kernel

theorem zombie_freed_twice : ¬∀ (S : Sched) (root : Proc) (evs : List Event)
    (tr tr' : List (Sigma HostCall.Ans)) (M : Machine) (S' : Sched), S.Started root →
    Session step (fun _ _ => True) ⟨S, .turn 0⟩ evs tr M → M.phase = .over →
    Prog.Runs M.S.schedDestroy tr' S' → ∀ c, c < M.S.made → S'.freed.count c = 1 := by
  intro h
  obtain ⟨tr, hrun⟩ : ∃ tr, Session _ _ _ _ tr limitedSched := rootRun_session _
  obtain ⟨tr', S', hend⟩ := Prog.exists_runs HostCall.nonempty_ans limitedSched.S.schedDestroy
  have hM : limitedSched.Accounted :=
    hrun.invariant (fun M ev hM _ => hM.step ev) rootSched_started.accounted
  have hfr : S'.freed = limitedSched.S.freed ++ limitedSched.S.cpusOf (range limitedSched.S.nprocs) :=
    Sched.ensures_destroyLoop hM.tidy.slot nodup_range _ _ hend
  have honce := h _ _ _ _ _ _ _ rootSched_started hrun limitedSched_zombie.1 hend
  rw [hfr] at honce
  obtain ⟨p, hp, hz⟩ := Option.map_eq_some_iff.mp limitedSched_zombie.2
  have hno := (hM.owned.freed_once_iff hM.tidy).mp honce 1 p hp
  rw [hz] at hno
  cases hno

end Skjegg.Emu
