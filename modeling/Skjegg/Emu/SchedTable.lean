import Skjegg.Emu.SpawnConfine

/-!
# What a step does to the process table

Every function of the scheduler changes the table by a few kinds of steps. What holds of runs follows
from what these steps keep.
-/

namespace Skjegg.Emu

open Skjegg.Lib Function List
open Prog (ensures_pure ensures_bind_any)

/-! ## Steps of the table -/

structure Proc.Same (p q : Proc) : Prop where
  cpu : q.cpu = p.cpu
  slot : q.slot = p.slot
  grants : q.grants = p.grants
  confined : p.g.confined = true → q.g.confined = true
  handle : q.handle = p.handle
  parentHandle : q.parentHandle = p.parentHandle
  done : p.done = true → q.done = true
  -- only a process that is done becomes a zombie
  buried : q.zombie = true → p.zombie = true ∨ p.done = true

structure Proc.Like (p q : Proc) : Prop extends Proc.Same p q where
  zombie : q.zombie = p.zombie

variable {c p q : Proc} {S'' : Sched} {i slot : Nat}

namespace Proc.Like

@[refl] theorem refl (p : Proc) : p.Like p := ⟨⟨rfl, rfl, rfl, id, rfl, rfl, id, .inl⟩, rfl⟩

theorem trans {r : Proc} (h : p.Like q) (h' : q.Like r) : p.Like r :=
  ⟨⟨h'.cpu.trans h.cpu, h'.slot.trans h.slot, h'.grants.trans h.grants,
    fun hp => h'.confined (h.confined hp), h'.handle.trans h.handle, h'.parentHandle.trans h.parentHandle,
    fun hp => h'.done (h.done hp), fun hz => .inl (by rwa [← h.zombie, ← h'.zombie])⟩,
    h'.zombie.trans h.zombie⟩

theorem guest {g : Guest} (h : p.g.confined = true → g.confined = true) :
    p.Like { p with g := g } :=
  ⟨⟨rfl, rfl, rfl, h, rfl, rfl, id, .inl⟩, rfl⟩

end Proc.Like

/-- A handle names the slot, and no process is its own parent. -/
structure Proc.Named (p : Proc) : Prop where
  handle : p.handle % 256 = p.slot + 1
  parent : p.parentHandle % 256 ≠ p.slot + 1

theorem Proc.Same.named (h : p.Same q) (hp : p.Named) : q.Named := by
  constructor
  · rw [h.handle, h.slot]
    exact hp.handle
  · rw [h.parentHandle, h.slot]
    exact hp.parent

namespace Sched

/-- Every process knows its slot and its handle, a zombie is done, the slots in use lie below the mark,
and the vDSO image has been tried. -/
structure Tidy (S : Sched) : Prop where
  slot : ∀ i p, S.procs i = some p → p.slot = i
  named : ∀ i p, S.procs i = some p → p.Named
  done : ∀ i p, S.procs i = some p → p.zombie = true → p.done = true
  lt : ∀ i p, S.procs i = some p → i < S.nprocs
  max : S.nprocs ≤ maxProc
  vdso : S.o.vdso = none ∨ ∃ image, S.vdso = .ready image

/-- What no step changes, and how the mark moves. -/
structure Stable (S S' : Sched) : Prop where
  o : S'.o = S.o
  vdso : S'.vdso = S.vdso
  le : S.nprocs ≤ S'.nprocs
  max : S.nprocs ≤ maxProc → S'.nprocs ≤ maxProc

structure SameCpus (S S' : Sched) : Prop where
  made : S'.made = S.made
  freed : S'.freed = S.freed

structure Calm (S S' : Sched) : Prop extends SameCpus S S', Stable S S' where
  procs : ∀ i, Option.Rel Proc.Like (S.procs i) (S'.procs i)

/-- A new process `c` in a free slot, with a new CPU. -/
structure Fresh (S : Sched) (c : Proc) (S' : Sched) : Prop where
  free : S.procs c.slot = none
  lt : c.slot < S'.nprocs
  procs : S'.procs = update S.procs c.slot (some c)
  cpu : c.cpu = S.made
  zombie : c.zombie = false
  made : S'.made = S.made + 1
  freed : S'.freed = S.freed
  stable : Stable S S'

/-- One step of the table; `ok` holds of the processes taken in, and `gone` of the slots whose process
ends. -/
inductive TableStep (ok : Proc → Prop) (gone : Nat → Prop) (S S' : Sched) : Prop
  | calm : Calm S S' → TableStep ok gone S S'
  | adopt (c : Proc) : Fresh S c S' → c.Named → ok c → TableStep ok gone S S'
  | waste : S'.procs = S.procs → S'.made = S.made + 1 → S'.freed = S.freed ++ [S.made] →
      Stable S S' → TableStep ok gone S S'
  | bury (i : Nat) (p q : Proc) : gone i → i ≠ 0 → S.procs i = some p → p.zombie = false →
      p.Same q → q.zombie = true →
      S'.procs = update S.procs i (some q) → S'.made = S.made →
      S'.freed = S.freed ++ [p.cpu] → Stable S S' → TableStep ok gone S S'
  | reap (i : Nat) (p : Proc) : gone i → S.procs i = some p → S'.procs = update S.procs i none →
      S'.made = S.made → S'.freed = S.freed ++ (if p.zombie then [] else [p.cpu]) → Stable S S' →
      TableStep ok gone S S'

abbrev Evolves (ok : Proc → Prop) (gone : Nat → Prop) : Sched → Sched → Prop :=
  Relation.ReflTransGen (TableStep ok gone)

theorem Stable.refl (S : Sched) : Stable S S := ⟨rfl, rfl, le_refl _, id⟩

variable {ok : Proc → Prop} {gone : Nat → Prop} {S S' : Sched}

theorem Stable.trans (h : Stable S S') (h' : Stable S' S'') : Stable S S'' :=
  ⟨h'.o.trans h.o, h'.vdso.trans h.vdso, h.le.trans h'.le, fun hmax => h'.max (h.max hmax)⟩

theorem TableStep.stable (h : TableStep ok gone S S') : Stable S S' := by
  cases h with
  | calm h => exact h.toStable
  | adopt _ h _ _ => exact h.stable
  | waste _ _ _ h | bury _ _ _ _ _ _ _ _ _ _ _ _ h | reap _ _ _ _ _ _ _ h => exact h

theorem TableStep.origin (h : TableStep ok gone S S') (hq : S'.procs i = some q) :
    (∃ p, S.procs i = some p ∧ p.Same q) ∨
      (i = q.slot ∧ i < S'.nprocs ∧ q.Named ∧ q.zombie = false ∧ ok q) := by
  cases h with
  | calm h =>
    have hrel := h.procs i
    rw [hq] at hrel
    generalize hp : S.procs i = r at hrel
    cases hrel with
    | @some p _ hpq => exact .inl ⟨p, rfl, hpq.toSame⟩
  | adopt c hfsh hnm hok =>
    rw [hfsh.procs] at hq
    by_cases hi : i = c.slot
    · rw [hi, update_self] at hq
      cases hq
      exact .inr ⟨hi, hi ▸ hfsh.lt, hnm, hfsh.zombie, hok⟩
    · rw [update_of_ne hi] at hq
      exact .inl ⟨q, hq, (Proc.Like.refl q).toSame⟩
  | waste hpr _ _ _ =>
    rw [hpr] at hq
    exact .inl ⟨q, hq, (Proc.Like.refl q).toSame⟩
  | bury j p r _ _ hp _ hsm _ hpr _ _ _ =>
    rw [hpr] at hq
    by_cases hi : i = j
    · rw [hi, update_self] at hq
      cases hq
      exact .inl ⟨p, hi ▸ hp, hsm⟩
    · rw [update_of_ne hi] at hq
      exact .inl ⟨q, hq, (Proc.Like.refl q).toSame⟩
  | reap j p _ _ hpr _ _ _ =>
    rw [hpr] at hq
    by_cases hi : i = j
    · rw [hi, update_self] at hq
      cases hq
    · rw [update_of_ne hi] at hq
      exact .inl ⟨q, hq, (Proc.Like.refl q).toSame⟩

theorem TableStep.tidy (h : TableStep ok gone S S') (hS : S.Tidy) : S'.Tidy := by
  have hstb := h.stable
  constructor
  · intro i q hq
    rcases h.origin hq with ⟨p, hp, hsm⟩ | ⟨hi, -⟩
    · exact hsm.slot.trans (hS.slot i p hp)
    · exact hi.symm
  · intro i q hq
    rcases h.origin hq with ⟨p, hp, hsm⟩ | ⟨-, -, hnm, -, -⟩
    · exact hsm.named (hS.named i p hp)
    · exact hnm
  · intro i q hq hz
    rcases h.origin hq with ⟨p, hp, hsm⟩ | ⟨-, -, -, hlv, -⟩
    · apply hsm.done
      rcases hsm.buried hz with hz | hdn
      · exact hS.done i p hp hz
      · exact hdn
    · rw [hlv] at hz
      cases hz
  · intro i q hq
    rcases h.origin hq with ⟨p, hp, -⟩ | ⟨-, hlt, -⟩
    · exact lt_of_lt_of_le (hS.lt i p hp) hstb.le
    · exact hlt
  · exact hstb.max hS.max
  · rw [hstb.o, hstb.vdso]
    exact hS.vdso

theorem Evolves.keeps {I : Sched → Prop} (hst : ∀ S S', TableStep ok gone S S' → I S → I S')
    (h : Evolves ok gone S S') (hS : I S) : I S' := by
  induction h with
  | refl => exact hS
  | tail _ hls ih => exact hst _ _ hls ih

theorem TableStep.mono {gone' : Nat → Prop} (hg : ∀ i, gone i → gone' i) (h : TableStep ok gone S S') :
    TableStep ok gone' S S' := by
  cases h with
  | calm h => exact .calm h
  | adopt c h hnm hok => exact .adopt c h hnm hok
  | waste hpr hma hfr hstb => exact .waste hpr hma hfr hstb
  | bury i p q hi hne hp hz hsm hq hpr hma hfr hstb =>
    exact .bury i p q (hg i hi) hne hp hz hsm hq hpr hma hfr hstb
  | reap i p hi hp hpr hma hfr hstb => exact .reap i p (hg i hi) hp hpr hma hfr hstb

def Runnable (i : Nat) (S : Sched) : Prop := ∃ p, S.procs i = some p ∧ p.zombie = false

theorem Runnable.update {j : Nat} {r : Option Proc} (h : S.Runnable i) (hj : j ≠ i)
    (hpr : S'.procs = Function.update S.procs j r) : S'.Runnable i := by
  obtain ⟨p, hp, hz⟩ := h
  refine ⟨p, ?_, hz⟩
  rw [hpr, update_of_ne hj.symm]
  exact hp

/-- A step that does not end the process of a slot leaves it runnable. -/
theorem Runnable.step (hi : ¬gone i) (h : TableStep ok gone S S') (hS : S.Runnable i) :
    S'.Runnable i := by
  cases h with
  | calm h =>
    obtain ⟨p, hp, hz⟩ := hS
    have hrel := h.procs i
    rw [hp] at hrel
    generalize hq : S'.procs i = r at hrel
    cases hrel with
    | @some _ q hpq => exact ⟨q, hq, hpq.zombie.trans hz⟩
  | adopt c h _ _ =>
    refine hS.update (fun hc => ?_) h.procs
    obtain ⟨p, hp, -⟩ := hS
    rw [← hc, h.free] at hp
    cases hp
  | waste hpr _ _ _ =>
    obtain ⟨p, hp, hz⟩ := hS
    exact ⟨p, hpr ▸ hp, hz⟩
  | bury j _ _ hj _ _ _ _ _ hpr _ _ _ => exact hS.update (fun h => hi (h ▸ hj)) hpr
  | reap j _ hj _ hpr _ _ _ => exact hS.update (fun h => hi (h ▸ hj)) hpr

theorem Evolves.tidy (h : Evolves ok gone S S') (hS : S.Tidy) : S'.Tidy :=
  h.keeps (fun _ _ => TableStep.tidy) hS

/-! ## Changes that are no change of the table -/

structure Quiet (S S' : Sched) : Prop extends SameCpus S S', Stable S S' where
  procs : S'.procs = S.procs

theorem Quiet.refl (S : Sched) : Quiet S S := ⟨⟨rfl, rfl⟩, .refl S, rfl⟩

theorem Quiet.trans (h : Quiet S S') (h' : Quiet S' S'') : Quiet S S'' :=
  ⟨⟨h'.made.trans h.made, h'.freed.trans h.freed⟩, h.toStable.trans h'.toStable, h'.procs.trans h.procs⟩

theorem Calm.of_map {f : Proc → Proc} (hf : ∀ p : Proc, p.Like (f p))
    (hpr : ∀ i, S'.procs i = (S.procs i).map f) (hcpus : SameCpus S S') (hstb : Stable S S') :
    Calm S S' := by
  refine ⟨hcpus, hstb, fun i => ?_⟩
  rw [hpr i]
  cases S.procs i with
  | none => exact .none
  | some p => exact .some (hf p)

theorem Calm.of_update (hp : S.procs i = some p) (hlk : p.Like q)
    (hpr : S'.procs = update S.procs i (some q)) (hcpus : SameCpus S S')
    (hstb : Stable S S') : Calm S S' := by
  refine ⟨hcpus, hstb, fun j => ?_⟩
  rw [hpr]
  by_cases hj : j = i
  · subst hj
    rw [update_self, hp]
    exact .some hlk
  · rw [update_of_ne hj]
    cases S.procs j with
    | none => exact .none
    | some r => exact .some (.refl r)

theorem Quiet.calm (h : Quiet S S') : Calm S S' :=
  .of_map (f := id) Proc.Like.refl (fun i => by rw [h.procs, Option.map_id, id]) h.toSameCpus h.toStable

theorem Calm.trans (h : Calm S S') (h' : Calm S' S'') : Calm S S'' := by
  refine ⟨⟨h'.made.trans h.made, h'.freed.trans h.freed⟩, h.toStable.trans h'.toStable, fun i => ?_⟩
  have h1 := h.procs i
  have h2 := h'.procs i
  generalize S.procs i = a, S'.procs i = b, S''.procs i = c at h1 h2
  cases h1 with
  | none => exact h2
  | some hpq =>
    cases h2 with
    | some hqr => exact .some (hpq.trans hqr)

theorem Calm.lookup (h : Calm S S') (hp : S.procs i = some p) : ∃ q, S'.procs i = some q ∧ p.Like q := by
  have hrel := h.procs i
  rw [hp] at hrel
  generalize S'.procs i = r at hrel
  cases hrel with
  | some hpq => exact ⟨_, rfl, hpq⟩

theorem Calm.put (hp : S.procs q.slot = some p) (hlk : p.Like q) : Calm S (S.put q) :=
  .of_update hp hlk rfl ⟨rfl, rfl⟩ ⟨rfl, rfl, le_refl _, id⟩

theorem Calm.modify {f : Proc → Proc} (hp : S.procs i = some p)
    (hlk : p.Like (f p)) : Calm S (S.modify i f) :=
  .of_update hp hlk (by rw [Sched.modify, hp]; rfl) ⟨rfl, rfl⟩ ⟨rfl, rfl, le_refl _, id⟩

theorem Calm.tidy (h : Calm S S') (hS : S.Tidy) : S'.Tidy :=
  TableStep.tidy (.calm h : TableStep (fun _ => True) (fun _ => True) S S') hS

theorem Tidy.put_guest (hS : S.Tidy) (hp : S.procs i = some p) {g : Guest}
    (hg : p.g.confined = true → g.confined = true) : Calm S (S.put { p with g := g }) :=
  .put (by rw [hS.slot i p hp]; exact hp) (.guest hg)

/-! ## Building a process -/

theorem quiet_hostAlloc {b : Bool} (h : S.hostAlloc = (b, S')) : Quiet S S' := by
  cases h
  exact ⟨⟨rfl, rfl⟩, ⟨rfl, rfl, le_refl _, id⟩, rfl⟩

theorem quiet_findSlot {r : Option Nat} (h : S.findSlot = (r, S')) : Quiet S S' := by
  unfold findSlot at h
  split at h
  · cases h
    exact .refl S
  split at h
  · cases h
    exact .refl S
  · next hmax =>
    cases h
    exact ⟨⟨rfl, rfl⟩, ⟨rfl, rfl, Nat.le_succ _, fun _ => Nat.succ_le_of_lt (Nat.lt_of_not_le hmax)⟩, rfl⟩

theorem findSlot_free (hS : S.Tidy) (h : S.findSlot = (some slot, S')) :
    S.procs slot = none ∧ slot < S'.nprocs := by
  unfold findSlot at h
  split at h
  · next i hfd =>
    cases h
    have hno : (S.procs slot).isNone = true := find?_some (p := fun i => (S.procs i).isNone) hfd
    exact ⟨Option.isNone_iff_eq_none.mp hno, mem_range.mp (mem_of_find?_eq_some hfd)⟩
  split at h
  · cases h
  cases h
  refine ⟨?_, Nat.lt_succ_self _⟩
  -- a process there would lie below the mark
  cases hp : S.procs _ with
  | none => rfl
  | some p => exact absurd (hS.lt _ p hp) (lt_irrefl _)

theorem quiet_memInit {r : Option GuestMem} (h : S.memInit = (r, S')) : Quiet S S' := by
  unfold memInit at h
  split at h
  · cases h
    exact .refl S
  split at h
  · next heq =>
    cases h
    exact quiet_hostAlloc heq
  · next heq =>
    cases h
    exact quiet_hostAlloc heq

theorem TableStep.of_waste {S1 S2 : Sched} (h : Quiet S S1)
    (h' : Quiet { S1 with made := S1.made + 1 } S2) : TableStep ok gone S (S2.freeCpu S1.made) := by
  apply TableStep.waste
  · exact h'.procs.trans h.procs
  · exact h'.made.trans (congrArg _ h.made)
  · show S2.freed ++ [S1.made] = S.freed ++ [S.made]
    rw [h'.freed, h.made]
    exact congrArg (· ++ [S.made]) h.freed
  · exact h.toStable.trans ⟨h'.o, h'.vdso, h'.le, h'.max⟩

theorem procAlloc_none (h : S.procAlloc = (none, S')) : TableStep ok gone S S' := by
  unfold procAlloc at h
  split at h
  · next hsl =>
    cases h
    exact .calm (Quiet.calm (quiet_findSlot hsl))
  rename_i slot S1 hsl
  have h1 := quiet_findSlot hsl
  split at h
  · next hal =>
    cases h
    exact .calm (Quiet.calm (h1.trans (quiet_hostAlloc hal)))
  rename_i S2 hal
  have h2 := h1.trans (quiet_hostAlloc hal)
  unfold allocCpu at h
  split at h
  · next hcpu =>
    cases h
    exact .calm (Quiet.calm (h2.trans (quiet_hostAlloc hcpu)))
  rename_i S3 hcpu
  have h3 := h2.trans (quiet_hostAlloc hcpu)
  split at h
  · next S4 hmem =>
    cases h
    exact .of_waste h3 (quiet_memInit hmem)
  · cases h

theorem procAlloc_some (hS : S.Tidy) (h : S.procAlloc = (some p, S')) : Fresh S p S' := by
  unfold procAlloc at h
  split at h
  · cases h
  rename_i slot S1 hsl
  have h1 := quiet_findSlot hsl
  have hfr := findSlot_free hS hsl
  split at h
  · cases h
  rename_i S2 hal
  have h2 := quiet_hostAlloc hal
  unfold allocCpu at h
  split at h
  · cases h
  rename_i S3 hcpu
  have h3 := h2.trans (quiet_hostAlloc hcpu)
  split at h
  · cases h
  rename_i mem S4 hmem
  have h4 := quiet_memInit hmem
  have hstb : Stable S1 S4 := h3.toStable.trans ⟨h4.o, h4.vdso, h4.le, h4.max⟩
  cases h
  constructor
  · exact hfr.1
  · exact lt_of_lt_of_le hfr.2 hstb.le
  · show update S4.procs slot _ = update S.procs slot _
    rw [h4.procs, h3.procs, h1.procs]
  · exact h3.made.trans h1.made
  · rfl
  · exact h4.made.trans (congrArg _ (h3.made.trans h1.made))
  · exact h4.freed.trans (h3.freed.trans h1.freed)
  · exact h1.toStable.trans ⟨hstb.o, hstb.vdso, hstb.le, hstb.max⟩

theorem Fresh.put {c' : Proc} (h : Fresh S c S') (hsl : c'.slot = c.slot) (hcpu : c'.cpu = c.cpu)
    (hzom : c'.zombie = c.zombie) : Fresh S c' (S'.put c') := by
  constructor
  · rw [hsl]
    exact h.free
  · rw [hsl]
    exact h.lt
  · show update S'.procs c'.slot (some c') = _
    rw [h.procs, hsl, update_idem]
  · exact hcpu.trans h.cpu
  · exact hzom.trans h.zombie
  · exact h.made
  · exact h.freed
  · exact h.stable.trans ⟨rfl, rfl, le_refl _, id⟩

theorem Fresh.discard (h : Fresh S c S') : (S'.procDiscard c).Ensures (TableStep ok gone S) := by
  refine ensures_bind_any fun g => ensures_pure ?_
  apply TableStep.waste
  · show update (update S'.procs c.slot _) c.slot none = S.procs
    rw [h.procs, update_idem, update_idem, ← h.free, update_eq_self]
  · exact h.made
  · show S'.freed ++ [c.cpu] = S.freed ++ [S.made]
    rw [h.freed, h.cpu]
  · exact h.stable.trans ⟨rfl, rfl, le_refl _, id⟩

/-- What building a process comes to: nothing but perhaps a CPU that is made and freed, or a new process
with a handle. -/
def Built (ok : Proc → Prop) (gone : Nat → Prop) (S : Sched) (r : Nat × Sched) : Prop :=
  (r.1 = 0 ∧ TableStep ok gone S r.2) ∨ ∃ c, Fresh S c r.2 ∧ r.1 = c.handle ∧ c.Named

theorem injectVdso_tried (h : S.o.vdso = none ∨ ∃ image, S.vdso = .ready image) (g : Guest) :
    ∃ g', S.injectVdso g = (some g', S) := by
  unfold injectVdso
  rcases h with h | ⟨image, h⟩
  · rw [h]
    exact ⟨g, rfl⟩
  rw [h]
  cases S.o.vdso with
  | none => exact ⟨g, rfl⟩
  | some _ => exact ⟨_, rfl⟩

theorem procHandle_mod (h : slot < maxProc) (gen : Nat) : procHandle slot gen % 256 = slot + 1 := by
  have hsl : slot + 1 < 2 ^ 8 := lt_of_le_of_lt h (by decide)
  have hgen : gen * 256 % 2 ^ 32 % 2 ^ 8 = 0 := by omega
  unfold procHandle
  rw [show 256 = 2 ^ 8 from rfl] at hgen ⊢
  rw [Nat.or_mod_two_pow, hgen, Nat.or_zero, Nat.mod_eq_of_lt hsl]

theorem Fresh.finish (h : Fresh S c S') (hS : S.Tidy) (hpar : c.parentHandle % 256 ≠ c.slot + 1)
    (info : ElfInfo) (argv envp : List CStr) : Built ok gone S (S'.procFinish c info argv envp) := by
  have hvd : S'.o.vdso = none ∨ ∃ image, S'.vdso = .ready image := by
    rw [h.stable.o, h.stable.vdso]
    exact hS.vdso
  have hlt : c.slot < maxProc := lt_of_lt_of_le h.lt (h.stable.max hS.max)
  obtain ⟨g, hg⟩ := injectVdso_tried hvd _
  unfold procFinish
  dsimp only
  rw [hg]
  exact .inr ⟨_, h.put rfl rfl rfl, rfl, procHandle_mod hlt _, hpar⟩

theorem Fresh.refuse (h : Fresh S c S') :
    (S'.procDiscard c >>= fun S => pure (0, S)).Ensures (Built ok gone S) :=
  h.discard.bind fun _ hS => ensures_pure (.inl ⟨rfl, hS⟩)

theorem Fresh.accept (h : Fresh S c S') (hS : S.Tidy) (hpar : c.parentHandle % 256 ≠ c.slot + 1)
    (info : ElfInfo) (argv envp : List CStr) :
    (S'.procAccept c info argv envp).Ensures (Built ok gone S) := by
  unfold procAccept
  split
  · exact h.refuse
  · exact ensures_pure (h.finish hS hpar _ _ _)

theorem Fresh.load {c' : Proc} (h : Fresh S c S') (hsl : c'.slot = c.slot) (hcpu : c'.cpu = c.cpu)
    (hzom : c'.zombie = c.zombie) (hS : S.Tidy) (hpar : c'.parentHandle % 256 ≠ c'.slot + 1)
    (img : List UInt8) (argv envp : List CStr) :
    (S'.procLoad c' img argv envp).Ensures (Built ok gone S) := by
  unfold procLoad
  dsimp only
  generalize loadInto _ _ img = r
  have hput : Fresh S { c' with g := c'.g.withGm r.2 } (S'.put { c' with g := c'.g.withGm r.2 }) :=
    h.put hsl hcpu hzom
  cases hr : r.1 with
  | error e => exact hput.refuse
  | ok info => exact hput.accept hS hpar _ _ _

theorem Fresh.ne_slot (h : Fresh S c S') (hp : S.procs i = some p) : i ≠ c.slot := by
  intro hi
  rw [hi, h.free] at hp
  cases hp

theorem Fresh.lookup (h : Fresh S c S') (hp : S.procs i = some p) : S'.procs i = some p := by
  rw [h.procs, update_of_ne (h.ne_slot hp)]
  exact hp

theorem Tidy.handle_mod (hS : S.Tidy) (hp : S.procs i = some p) : p.handle % 256 = i + 1 := by
  have hmod := (hS.named i p hp).handle
  rw [hS.slot i p hp] at hmod
  exact hmod

theorem Tidy.ensures_procNewMem (hS : S.Tidy) (hp : S.procs i = some p) (img : List UInt8)
    (argv : List CStr) : (S.procNewMem img argv i).Ensures (Built ok gone S) := by
  unfold procNewMem
  split
  · next S1 hal => exact ensures_pure (.inl ⟨rfl, procAlloc_none hal⟩)
  rename_i c S1 hal
  have hfsh := procAlloc_some hS hal
  apply hfsh.load
  · rfl
  · rfl
  · rfl
  · exact hS
  -- the parent's slot is in use, so it is another
  · show (if _ then 0 else ((S1.procs i).map Proc.handle).getD 0) % 256 ≠ c.slot + 1
    split
    · exact (Nat.succ_ne_zero _).symm
    · rw [hfsh.lookup hp, Option.map_some, Option.getD_some, hS.handle_mod hp]
      exact fun h => hfsh.ne_slot hp (Nat.succ_injective h)

/-! ## Spawning -/

theorem Fresh.procFromHandle (h : Fresh S c S') (hc : c.Named) :
    S'.procFromHandle c.handle = some c := by
  unfold Sched.procFromHandle
  rw [hc.handle, Nat.add_sub_cancel, if_neg]
  · rw [h.procs, update_self]
    exact if_pos rfl
  · exact not_or.mpr ⟨Nat.succ_ne_zero _, Nat.not_le_of_lt h.lt⟩

theorem handle_ne_zero (hc : c.Named) : c.handle ≠ 0 := by
  have hmod := hc.handle
  intro h0
  rw [h0] at hmod
  exact absurd hmod.symm (Nat.succ_ne_zero _)

theorem Tidy.calm_readImage (hS : S.Tidy) (hp : S.procs i = some p) {addr len : Nat}
    {r : Option (List UInt8)} (h : S.readImage p addr len = (r, S')) : Calm S S' := by
  unfold Sched.readImage at h
  split at h
  · next hal =>
    cases h
    exact (quiet_hostAlloc hal).calm
  rename_i S1 hal
  have h1 := quiet_hostAlloc hal
  have hput : ∀ g, g.confined = p.g.confined → Calm S (S1.put { p with g := g }) := by
    intro g hg
    apply h1.calm.trans
    apply (h1.calm.tidy hS).put_guest
    · rw [h1.procs]
      exact hp
    · exact fun hp => hg.trans hp
  dsimp only at h
  split at h
  · cases h
    exact hput _ rfl
  · cases h
    exact hput _ rfl

theorem Tidy.calm_spawnRequest (hS : S.Tidy) (hp : S.procs i = some p) {desc : Nat}
    {r : Option SpawnRequest} (h : S.spawnRequest p desc = (r, S')) : Calm S S' := by
  unfold Sched.spawnRequest at h
  dsimp only at h
  have hcf := confined_readRequest (S.current p).g (if S.ops.word64 then 8 else 4) desc
  split at h
  · next g hreq =>
    cases h
    rw [hreq] at hcf
    exact hS.put_guest hp fun hp => hcf.trans hp
  rename_i image len req g hreq
  rw [hreq] at hcf
  have hput : Calm S (S.put { p with g := g }) := hS.put_guest hp fun hp => hcf.trans hp
  have hsl : (S.put { p with g := g }).procs i = some { p with g := g } := by
    show update S.procs p.slot _ i = _
    rw [hS.slot i p hp, update_self]
  split at h
  all_goals
    next himg =>
    cases h
    exact hput.trans ((hput.tidy hS).calm_readImage hsl himg)

def MountsConfine (req : SpawnRequest) (grants : List Grant) (c : Proc) : Prop :=
  shareMounts req.flags = true → Inherits req.image grants → c.g.confined = true

theorem Fresh.endow (h : Fresh S c S') (hc : c.Named) (hp : S.procs i = some p) (req : SpawnRequest) :
    (S'.endow i c.handle req).Ensures fun S'' =>
      ∃ c', Fresh S c' S'' ∧ c'.Named ∧ MountsConfine req p.grants c' := by
  unfold Sched.endow
  rw [h.procFromHandle hc]
  -- the mounts
  refine Prog.Ensures.bind (Q := fun S1 => ∃ c1, Fresh S c1 S1 ∧ c1.handle = c.handle ∧
    c1.Named ∧ MountsConfine req p.grants c1) ?_ fun S1 h1 => ?_
  · unfold Sched.inheritMounts
    split
    · rw [h.lookup hp]
      by_cases hinh : Inherits req.image p.grants
      · refine (ensures_guestInstallGrantsMem hinh _).bind fun r hr => ensures_pure ?_
        exact ⟨_, h.put rfl rfl rfl, rfl, ⟨hc.handle, hc.parent⟩, fun _ _ => hr⟩
      · refine ensures_bind_any fun r => ensures_pure ?_
        exact ⟨_, h.put rfl rfl rfl, rfl, ⟨hc.handle, hc.parent⟩, fun _ hinh' => absurd hinh' hinh⟩
    · next hshr => exact ensures_pure ⟨c, h, rfl, hc, fun hshr' => absurd hshr' hshr⟩
  -- the descriptors
  · obtain ⟨c1, hfsh, hhnd, hc1, hcf⟩ := h1
    unfold Sched.inheritFds
    rw [← hhnd, hfsh.procFromHandle hc1]
    split
    · next c2 p2 hc2 hp2 =>
      cases hc2
      refine (ensures_guestInstallFdmapMem _ _ _ _).bind fun g hg => ensures_pure ?_
      refine ⟨_, hfsh.put rfl rfl rfl, ⟨hc1.handle, hc1.parent⟩, fun hshr hinh => ?_⟩
      exact hg.trans (hcf hshr hinh)
    · exact ensures_pure ⟨c1, hfsh, hc1, hcf⟩

theorem Evolves.of_step (h : TableStep ok gone S S') : Evolves ok gone S S' := Relation.ReflTransGen.single h

theorem Evolves.of_calm (h : Calm S S') : Evolves ok gone S S' := .of_step (.calm h)

theorem Tidy.ensures_doSpawn (hS : S.Tidy) (hok : ∀ c, ok c) (hp : S.procs i = some p) (ptr len : Nat) :
    (S.doSpawn p ptr len).Ensures fun r => Evolves ok gone S r.2 := by
  unfold Sched.doSpawn
  split
  · exact ensures_pure .refl
  split
  · next himg => exact ensures_pure (.of_calm (hS.calm_readImage hp himg))
  rename_i S1 himg
  have hcalm := hS.calm_readImage hp himg
  obtain ⟨p1, hp1, -⟩ := hcalm.lookup hp
  rw [hS.slot i p hp]
  refine ((hcalm.tidy hS).ensures_procNewMem hp1 _ _ : Prog.Ensures _ (Built ok gone S1)).mono
    fun r hr => ?_
  rcases hr with ⟨-, hst⟩ | ⟨c, hfsh, -, hnm⟩
  · exact (Evolves.of_calm hcalm).tail hst
  · exact (Evolves.of_calm hcalm).tail (.adopt c hfsh hnm (hok c))

theorem Tidy.ensures_doSpawnv (hS : S.Tidy) (hp : S.procs i = some p) (desc : Nat)
    (hok : ∀ req S1, S.spawnRequest p desc = (some req, S1) → ∀ c, MountsConfine req p.grants c → ok c) :
    (S.doSpawnv p desc).Ensures fun r => Evolves ok gone S r.2 := by
  unfold Sched.doSpawnv
  split
  · next hreq => exact ensures_pure (.of_calm (hS.calm_spawnRequest hp hreq))
  rename_i req S1 hreq
  have hcalm := hS.calm_spawnRequest hp hreq
  have hS1 := hcalm.tidy hS
  have hev : Evolves ok gone S S1 := .of_calm hcalm
  obtain ⟨p1, hp1, hlk⟩ := hcalm.lookup hp
  rw [hS.slot i p hp]
  refine (hS1.ensures_procNewMem hp1 _ _ : Prog.Ensures _ (Built ok gone S1)).bind fun r hr => ?_
  rcases hr with ⟨hzero, hst⟩ | ⟨c, hfsh, hh, hc⟩
  · dsimp only
    rw [if_pos hzero]
    exact ensures_pure (hev.tail hst)
  dsimp only
  rw [hh, if_neg (handle_ne_zero hc)]
  refine (hfsh.endow hc hp1 req).bind fun S2 hS2 => ensures_pure ?_
  obtain ⟨c', hfsh', hnm, hcf⟩ := hS2
  rw [hlk.grants] at hcf
  exact hev.tail (.adopt c' hfsh' hnm (hok req S1 hreq c' hcf))

/-! ## Ending and waiting -/

structure Reaped (S : Sched) (i : Nat) (p : Proc) (S' : Sched) : Prop where
  procs : S'.procs = update S.procs i none
  made : S'.made = S.made
  freed : S'.freed = S.freed ++ (if p.zombie then [] else [p.cpu])
  stable : Stable S S'

theorem Tidy.reaped_reapChild (hS : S.Tidy) (hp : S.procs i = some p) :
    (S.reapChild i).Ensures (Reaped S i p) := by
  unfold Sched.reapChild Sched.freeProcResources
  rw [hp]
  dsimp only
  split
  · next hz =>
    refine ensures_pure ⟨rfl, rfl, ?_, rfl, rfl, le_refl _, id⟩
    rw [if_pos hz, append_nil]
    rfl
  rename_i hz
  rw [Prog.bind_assoc]
  refine ensures_bind_any fun g => ensures_pure ⟨?_, rfl, ?_, rfl, rfl, le_refl _, id⟩
  · show update (update S.procs p.slot _) i none = _
    rw [hS.slot i p hp, update_idem]
  · rw [if_neg hz]
    rfl

theorem Tidy.ensures_reapChild (hS : S.Tidy) (hi : gone i) :
    (S.reapChild i).Ensures (TableStep ok gone S) := by
  cases hp : S.procs i with
  | none =>
    unfold Sched.reapChild
    rw [hp]
    exact ensures_pure (.calm (Quiet.refl S).calm)
  | some p =>
    exact (hS.reaped_reapChild hp).mono fun S' h => .reap i p hi hp h.procs h.made h.freed h.stable

theorem Tidy.ensures_zombify (hS : S.Tidy) (hgone : gone i) (hi : i ≠ 0) :
    (zombify S i).Ensures (TableStep ok gone S) := by
  unfold zombify
  split
  · exact ensures_pure (.calm (Quiet.refl S).calm)
  rename_i p hp
  split
  · next hdn =>
    unfold Sched.freeProcResources
    split
    · exact ensures_pure (.calm (Quiet.refl S).calm)
    rename_i hz
    refine (ensures_guestRelease _).bind fun g hg => ensures_pure ?_
    apply TableStep.bury i p { p with g := g, zombie := true } hgone hi hp (Bool.eq_false_iff.mpr hz)
    · exact ⟨rfl, rfl, rfl, fun hcf => hg.trans hcf, rfl, rfl, id, fun _ => .inr hdn⟩
    · rfl
    · show update S.procs p.slot _ = _
      rw [hS.slot i p hp]
    · rfl
    · rfl
    · exact ⟨rfl, rfl, le_refl _, id⟩
  · exact ensures_pure (.calm (Quiet.refl S).calm)

theorem procFromHandle_some {h : Nat} (hc : S.procFromHandle h = some c) :
    ∃ i, S.procs i = some c ∧ c.handle = h := by
  unfold Sched.procFromHandle at hc
  split at hc
  · cases hc
  split at hc
  · cases hc
  rename_i p hp
  split at hc
  · next hh =>
    cases hc
    exact ⟨_, hp, hh⟩
  · cases hc

theorem Tidy.child_ne (hS : S.Tidy) {h : Nat} (hp : S.procs i = some p) (hc : S.procFromHandle h = some c)
    (hpar : c.parentHandle = p.handle) : c.slot ≠ i := by
  obtain ⟨j, hj, -⟩ := procFromHandle_some hc
  intro hi
  have hne := (hS.named j c hj).parent
  rw [hpar, hS.handle_mod hp, hi] at hne
  exact hne rfl

/-- A process that waits ends a child of its own, never itself. -/
theorem Tidy.ensures_doWait (hS : S.Tidy) (hp : S.procs i = some p) (h : Nat) :
    (S.doWait p h).Ensures fun r => Evolves ok (· ≠ i) S r.2 := by
  -- the caller's mark of what it waits for is no change of who it is
  have hmk : ∀ {S1 : Sched} (f : Proc → Proc), (∀ q : Proc, q.Like (f q)) →
      Calm S1 (S1.modify p.slot f) := by
    intro S1 f hf
    cases hq : S1.procs _ with
    | none =>
      refine Quiet.calm ⟨⟨rfl, rfl⟩, ⟨rfl, rfl, le_refl _, id⟩, ?_⟩
      show update S1.procs p.slot ((S1.procs p.slot).map f) = S1.procs
      rw [hq, Option.map_none, ← hq, update_eq_self]
    | some q => exact .modify hq (hf q)
  unfold Sched.doWait
  split
  · exact ensures_pure .refl
  rename_i c hc
  split
  · exact ensures_pure .refl
  rename_i hpar
  split
  · have hne := hS.child_ne hp hc (not_not.mp hpar)
    refine (hS.ensures_reapChild hne : Prog.Ensures _ (TableStep ok (· ≠ i) S)).bind fun S1 hS1 =>
      ensures_pure ?_
    exact (Evolves.of_step hS1).tail (.calm (hmk _ fun q => ⟨⟨rfl, rfl, rfl, id, rfl, rfl, id, .inl⟩, rfl⟩))
  · split
    · exact ensures_pure .refl
    · exact ensures_pure (.of_calm (hmk _ fun q => ⟨⟨rfl, rfl, rfl, id, rfl, rfl, id, .inl⟩, rfl⟩))

theorem Tidy.calm_doKill (hS : S.Tidy) (p : Proc) (h status : Nat) : Calm S (S.doKill p h status).2 := by
  unfold Sched.doKill
  split
  · exact (Quiet.refl S).calm
  rename_i c hc
  obtain ⟨i, hi, -⟩ := procFromHandle_some hc
  split
  · exact (Quiet.refl S).calm
  · split
    · exact (Quiet.refl S).calm
    · exact .modify (hS.slot i c hi ▸ hi) ⟨⟨rfl, rfl, rfl, id, rfl, rfl, fun _ => rfl, .inl⟩, rfl⟩

/-! ## Acts -/

def Welcome (ok : Proc → Prop) (S : Sched) (p : Proc) (nr arg0 : UInt32) : Prop :=
  (nr = 0x000f0003 → ∀ c, ok c) ∧
    (nr = 0x000f0006 → ∀ req S₁, S.spawnRequest p arg0.toNat = (some req, S₁) →
      ∀ c, MountsConfine req p.grants c → ok c)

theorem Tidy.ensures_schedPrivate (hS : S.Tidy) (hp : S.procs i = some p)
    {nr arg0 : UInt32} (hok : Welcome ok S p nr arg0) (arg1 : UInt32) :
    (S.schedPrivate p nr arg0 arg1).Ensures fun r => Evolves ok (· ≠ i) S r.2 := by
  have hput : ∀ {g : Guest}, g.confined = p.g.confined → Evolves ok (· ≠ i) S (S.put { p with g := g }) :=
    fun hg => .of_calm (hS.put_guest hp fun hp => hg.trans hp)
  unfold Sched.schedPrivate
  split
  · exact ensures_pure (hput rfl)
  split
  · exact ensures_pure (hput rfl)
  split
  · next hnr => exact (hS.ensures_doSpawn (hok.1 hnr) hp _ _).bind fun r hr => ensures_pure hr
  split
  · next hnr => exact (hS.ensures_doSpawnv hp _ (hok.2 hnr)).bind fun r hr => ensures_pure hr
  split
  · exact hS.ensures_doWait hp _
  split
  · exact ensures_pure (.of_calm (hS.calm_doKill p _ _))
  split
  · exact (ensures_guestMakePipe _ _).bind fun r hr => ensures_pure (hput hr)
  split
  · refine ensures_pure (.of_calm (.put (by rw [hS.slot i p hp]; exact hp) ?_))
    exact ⟨⟨rfl, rfl, rfl, id, rfl, rfl, id, .inl⟩, rfl⟩
  split
  · exact ensures_pure .refl
  split
  · exact (ensures_guestP9Doorbell _ _).bind fun r hr => ensures_pure (hput hr)
  · exact ensures_pure .refl

def ActWelcome (ok : Proc → Prop) (S : Sched) (slot : Nat) : Act → Prop
  | .priv nr arg0 _ => ∀ p, S.procs slot = some p → Welcome ok S p nr arg0
  | _ => True

theorem Tidy.ensures_perform (hS : S.Tidy) {a : Act} (hok : ActWelcome ok S slot a) :
    (S.perform slot a).Ensures (Evolves ok (· ≠ slot) S) := by
  unfold Sched.perform
  split
  · exact ensures_pure .refl
  rename_i p hp
  cases a with
  | load | store => exact ensures_pure (.of_calm (hS.put_guest hp id))
  | syscall c =>
    by_cases hg : p.g.confined = true
    · refine (ensures_guestSyscall (g := (S.current p).g) hg c).bind fun r hr => ensures_pure ?_
      exact .of_calm (hS.put_guest hp fun _ => hr)
    · refine ensures_bind_any fun r => ensures_pure ?_
      exact .of_calm (hS.put_guest hp fun hg' => absurd hg' hg)
  | priv nr arg0 arg1 =>
    exact (hS.ensures_schedPrivate hp (hok p hp) _).bind fun r hr => ensures_pure hr

/-! ## Rounds -/

theorem like_sliceEnd (S : Sched) (p : Proc) (reason : Reason) : p.Like (S.sliceEnd p reason) := by
  have hdn : ∀ rc, p.Like { p with rc := rc, done := true } :=
    fun _ => ⟨⟨rfl, rfl, rfl, id, rfl, rfl, fun _ => rfl, .inl⟩, rfl⟩
  unfold Sched.sliceEnd
  split
  · exact hdn _
  split
  · exact hdn _
  · exact hdn _
  · exact hdn _
  split
  · exact hdn _
  split
  · exact hdn _
  split
  · exact ⟨⟨rfl, rfl, rfl, id, rfl, rfl, id, .inl⟩, rfl⟩
  · exact .guest id

theorem calm_stopSlice (S : Sched) (slot : Nat) (reason : Reason) (ran : Nat) :
    Calm S (S.stopSlice slot reason ran) := by
  unfold Sched.stopSlice
  split
  · exact (Quiet.refl S).calm
  rename_i p hp
  have hlk : p.Like { p with insns := p.insns + ran } := ⟨⟨rfl, rfl, rfl, id, rfl, rfl, id, .inl⟩, rfl⟩
  refine .of_update hp (hlk.trans (like_sliceEnd { S with insns := S.insns + ran } _ reason)) ?_
    ⟨rfl, rfl⟩ ⟨rfl, rfl, le_refl _, id⟩
  show update S.procs slot ((S.procs slot).map _) = _
  rw [hp]
  rfl

theorem calm_wakeWaiters (S : Sched) : Calm S S.wakeWaiters := by
  refine .of_map (fun p => ?_) (fun _ => rfl) ⟨rfl, rfl⟩ ⟨rfl, rfl, le_refl _, id⟩
  unfold Sched.wakeWaiter
  split
  · exact .refl p
  · split
    · exact ⟨⟨rfl, rfl, rfl, id, rfl, rfl, id, .inl⟩, rfl⟩
    · exact .refl p

theorem Tidy.ensures_reapOrphan (hS : S.Tidy) (hi : gone i) :
    (reapOrphan S i).Ensures (TableStep ok gone S) := by
  unfold reapOrphan
  split
  · exact ensures_pure (.calm (Quiet.refl S).calm)
  · split
    · exact hS.ensures_reapChild hi
    · exact ensures_pure (.calm (Quiet.refl S).calm)

theorem Tidy.ensures_loop (hS : S.Tidy) {f : Sched → Nat → Host Sched} {l : List Nat}
    (hf : ∀ S1 : Sched, S1.Tidy → ∀ i ∈ l, (f S1 i).Ensures (TableStep ok gone S1)) :
    (l.foldlM f S).Ensures (Evolves ok gone S) := by
  refine Prog.ensures_foldlM (fun S1 i hi hS1 => ?_) .refl
  exact (hf S1 (hS1.tidy hS) i hi).mono fun S2 hS2 => hS1.tail hS2

theorem ne_zero_of_mem_childSlots (h : i ∈ S.childSlots) : i ≠ 0 := by
  have hmem := (mem_range'_1.mp h).1
  omega

theorem Tidy.ensures_bookkeep (hS : S.Tidy) : S.bookkeep.Ensures (Evolves ok (fun _ => True) S) := by
  refine Prog.Ensures.bind (Q := Evolves ok (fun _ => True) S) ?_ fun S1 h1 => ?_
  · exact hS.ensures_loop fun S1 hS1 i hi => hS1.ensures_zombify trivial (ne_zero_of_mem_childSlots hi)
  have h2 : Evolves ok (fun _ => True) S S1.wakeWaiters := h1.tail (.calm (calm_wakeWaiters S1))
  refine Prog.Ensures.mono ?_ fun S2 h3 => h2.trans h3
  exact (h2.tidy hS).ensures_loop fun S2 hS2 i _ => hS2.ensures_reapOrphan trivial

theorem calm_wake (S : Sched) (which : Proc → Bool) : Calm S (S.wake which) := by
  refine .of_map (fun p => ?_) (fun _ => rfl) ⟨rfl, rfl⟩ ⟨rfl, rfl, le_refl _, id⟩
  split
  · exact ⟨⟨rfl, rfl, rfl, id, rfl, rfl, id, .inl⟩, rfl⟩
  · exact .refl p

theorem calm_pollSlot (S : Sched) (i : Nat) : (pollSlot S i).Ensures (Calm S) := by
  unfold pollSlot
  split
  · exact ensures_pure (Quiet.refl S).calm
  split
  · refine ensures_bind_any fun r => ensures_pure ?_
    split
    · exact (Quiet.refl S).calm
    · exact calm_wake S _
  · exact ensures_pure (Quiet.refl S).calm

theorem Tidy.ensures_pollBlocked (hS : S.Tidy) : S.pollBlocked.Ensures (Evolves ok (fun _ => True) S) := by
  refine Prog.Ensures.bind (Q := Evolves ok (fun _ => True) S) ?_ fun S1 h1 => ?_
  · exact hS.ensures_loop fun S1 _ i _ => (calm_pollSlot S1 i).mono fun _ => .calm
  · refine ensures_bind_any fun now => ensures_pure ?_
    exact h1.tail (.calm (calm_wake S1 _))

end Sched

/-! ## The machine -/

def Machine.Welcome (ok : Proc → Prop) (M : Machine) : Event → Prop
  | .act a => ∀ slot, M.phase = .slice slot → Sched.ActWelcome ok M.S slot a
  | _ => True

theorem Machine.ensures_step {ok : Proc → Prop} {M : Machine} (hM : M.S.Tidy) {ev : Event}
    (hok : M.Welcome ok ev) : (M.step ev).Ensures fun M' => Sched.Evolves ok (fun _ => True) M.S M'.S := by
  unfold Machine.step
  cases ev with
  | tick =>
    dsimp only
    split
    · unfold Machine.tick
      split
      · refine Prog.Ensures.bind (Q := Sched.Evolves ok (fun _ => True) M.S) hM.ensures_bookkeep fun S1 h1 => ?_
        split
        · refine Prog.Ensures.bind (Q := Sched.Evolves ok (fun _ => True) S1) ?_ fun S2 h2 => ensures_pure ?_
          · exact (h1.tidy hM).ensures_pollBlocked
          · exact h1.trans h2
        · exact ensures_pure h1
      · split
        · exact ensures_pure .refl
        · split
          · exact ensures_pure .refl
          · exact ensures_pure .refl
    · exact ensures_pure .refl
  | act a =>
    dsimp only
    split
    · next slot hph =>
      refine (hM.ensures_perform (hok _ hph)).bind fun S1 h1 => ensures_pure ?_
      exact Relation.ReflTransGen.mono (fun _ _ => Sched.TableStep.mono fun _ _ => trivial) _ _ h1
    · exact ensures_pure .refl
  | stop reason ran =>
    dsimp only
    split
    · exact ensures_pure (.of_calm (Sched.calm_stopSlice _ _ _ _))
    · exact ensures_pure .refl

theorem Machine.run_keeps {ok : Proc → Prop} {I : Sched → Prop}
    (hst : ∀ S S', S.Tidy → Sched.TableStep ok (fun _ => True) S S' → I S → I S') {M M' : Machine}
    {evs : List Event} {tr : List (Sigma HostCall.Ans)}
    (hrun : Session Machine.step (Machine.Welcome ok) M evs tr M') (hM : M.S.Tidy) (h : I M.S) :
    M'.S.Tidy ∧ I M'.S := by
  refine hrun.invariant (I := fun M => M.S.Tidy ∧ I M.S) (fun M1 ev h1 hok => ?_) ⟨hM, h⟩
  refine (Machine.ensures_step h1.1 hok).mono fun M2 hev => ?_
  exact hev.keeps (I := fun S => S.Tidy ∧ I S)
    (fun S S' hSS' hS => ⟨hSS'.tidy hS.1, hst S S' hS.1 hSS' hS.2⟩) h1

theorem Sched.Started.eq_root {S : Sched} {root : Proc} (h : S.Started root)
    (hp : S.procs i = some p) : i = 0 ∧ p = root := by
  rw [h.procs] at hp
  by_cases hi : i = 0
  · rw [hi, update_self] at hp
    cases hp
    exact ⟨hi, rfl⟩
  · rw [update_of_ne hi] at hp
    cases hp

theorem Sched.Started.tidy {S : Sched} {root : Proc} (h : S.Started root) : S.Tidy := by
  constructor
  · intro i p hp
    obtain ⟨rfl, rfl⟩ := h.eq_root hp
    exact h.slot
  · intro i p hp
    obtain ⟨rfl, rfl⟩ := h.eq_root hp
    constructor
    · rw [h.handle, h.slot]
      decide
    · rw [h.parent, h.slot]
      decide
  · intro i p hp hz
    rw [(h.eq_root hp).2, h.zombie] at hz
    cases hz
  · intro i p hp
    rw [(h.eq_root hp).1, h.nprocs]
    exact one_pos
  · rw [h.nprocs]
    decide
  · exact h.vdso

end Skjegg.Emu
