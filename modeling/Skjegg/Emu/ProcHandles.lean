import Skjegg.Emu.GuestConfine

/-!
# Handles of `proc:` descriptors

The root of the `proc:` mount has a descriptor with no open file behind it. A read, a seek, a listing
or a `statx` of it hands the null handle to `procfs.c`, which dereferences it.
-/

namespace Skjegg.Emu

open Skjegg.Lib List

/-- The call has an open file to look at; `procfs_free` takes a null handle as well. -/
def HostCall.HasHandle (q : HostCall) : Prop := ¬q.Through none

def descriptorCalls : List GuestSys := [.read, .write, .lseek, .llseek, .statx, .getdents64, .close]

/-- The calls that are served from the open file of a descriptor; `statx` with `AT_EMPTY_PATH`. -/
def Syscall.Serves (c : Syscall) : Prop :=
  c.sys ∈ [.read, .lseek, .llseek, .getdents64] ∨ c.sys = .statx ∧ c.a2.toNat.testBit 12

/-- No call of the sequence goes through a null handle, in any run. -/
def KeepsHandles : Guest → List Syscall → Prop
  | _, [] => True
  | g, c :: cs =>
    ∀ tr r, Prog.Runs (guestSyscall g c) tr r → (∀ ev ∈ tr, ev.1.HasHandle) ∧ KeepsHandles r.2 cs

/-- No call of the sequence is served from the root of `proc:`, in the table it is made in. -/
def SparesRoot : Guest → List Syscall → Prop
  | _, [] => True
  | g, c :: cs =>
    (∀ tr g', Prog.Runs g.enter tr g' → c.Serves → ¬g'.RootAt c.a0.toNat) ∧
      ∀ tr r, Prog.Runs (guestSyscall g c) tr r → SparesRoot r.2 cs

abbrev handled : Protocol HostCall HostCall.Ans Unit := .always HostCall.HasHandle

variable {g : Guest} {c : Syscall}

theorem lets_handled {root : Prop} (h : ¬root) : Lets handled root where
  plain := by
    intro q hq _
    cases q <;> first | exact hq.elim | exact id
  proc := by
    intro h' q hro hq _ hnu
    cases q <;> first | exact hq.elim | exact h (hro (hq.symm.trans hnu))

theorem obeys_sysStatx {dirfd flags : Nat} (hsps : flags.testBit 12 → ¬g.RootAt dirfd) (pathp bufp : Nat) :
    Obeys handled (sysStatx g dirfd pathp flags bufp) fun _ => True := by
  unfold sysStatx
  split
  next hfg =>
    split
    · exact obeys_pure trivial
    next e he =>
      split
      next hdev =>
        have hmay := (lets_handled (hsps hfg)).proc (q := .procfsFstat _) (rootAt_of_proc he hdev) rfl
        exact obeys_ask hmay fun _ => obeys_pure trivial
      · split
        · exact obeys_pure trivial
        · exact obeys_ask (fun _ => id) fun _ => obeys_pure trivial
  · split
    · exact obeys_pure trivial
    dsimp only
    split
    · exact obeys_ask (fun _ => id) fun _ => obeys_pure trivial
    split
    · exact obeys_pure trivial
    refine Obeys.bind (Q := fun _ => True) ?_ fun _ _ => obeys_pure trivial
    unfold statIn
    split
    · exact fun _ => ⟨id, fun _ _ => trivial⟩
    refine obeys_ask (fun _ => id) fun fd => ?_
    split
    · exact obeys_pure trivial
    · exact obeys_ask (fun _ => id) fun _ => obeys_ask (fun _ => id) fun _ => obeys_pure trivial

theorem wp_dispatch_handled (hc : c.sys ∈ descriptorCalls) :
    (dispatch g c).wp handled () (fun _ _ => True) ↔ (c.Serves → ¬g.RootAt c.a0.toNat) := by
  obtain ⟨sys, a0, a1, a2, a3, a4⟩ := c
  constructor
  · rintro h hserves ⟨hostFd, hro⟩
    simp only [Syscall.Serves, mem_cons, not_mem_nil, or_false] at hserves
    rcases hserves with (rfl | rfl | rfl | rfl) | ⟨rfl, hfg⟩
    · simp only [dispatch, sysRead, hro] at h
      exact h.1 rfl
    · simp only [dispatch, sysLseek, seekTo, hro] at h
      exact h.1 rfl
    · simp only [dispatch, sysLlseek, seekTo, hro] at h
      exact h.1 rfl
    · simp only [dispatch, sysGetdents64, hro] at h
      exact h.1 rfl
    · simp only [dispatch, sysStatx, hfg, if_true, hro] at h
      exact h.1 rfl
  · intro hsps
    suffices hobeys : Obeys _ _ fun _ => True from hobeys ()
    simp only [descriptorCalls, mem_cons, not_mem_nil, or_false] at hc
    rcases hc with rfl | rfl | rfl | rfl | rfl | rfl | rfl
    · exact (obeys_sysRead (lets_handled (hsps (.inl (by simp)))) _ _).mono fun _ _ => trivial
    · exact (obeys_sysWrite (lets_handled not_false) _ _ _).mono fun _ _ => trivial
    · exact (obeys_sysLseek (lets_handled (hsps (.inl (by simp)))) _ _).mono fun _ _ => trivial
    · exact (obeys_sysLlseek (lets_handled (hsps (.inl (by simp)))) _ _ _ _).mono fun _ _ => trivial
    · exact obeys_sysStatx (fun hfg => hsps (.inr ⟨rfl, hfg⟩)) _ _
    · exact (obeys_sysGetdents64 (lets_handled (hsps (.inl (by simp)))) _ _).mono fun _ _ => trivial
    · exact (obeys_gfdClose (lets_handled not_false) _).mono fun _ _ => trivial

theorem wp_enter_handled : g.enter.wp handled () fun _ _ => True := by
  unfold Guest.enter Guest.gfdInit
  split
  · trivial
  · exact ⟨id, fun _ _ => ⟨id, fun _ _ => ⟨id, fun _ _ => trivial⟩⟩⟩

theorem runs_guestSyscall_handled (hc : c.sys ∈ descriptorCalls) :
    (∀ tr r, Prog.Runs (guestSyscall g c) tr r → ∀ ev ∈ tr, ev.1.HasHandle) ↔
      ∀ tr g', Prog.Runs g.enter tr g' → c.Serves → ¬g'.RootAt c.a0.toNat := by
  have hwp : (∀ tr r, Prog.Runs (guestSyscall g c) tr r → ∀ ev ∈ tr, ev.1.HasHandle) ↔
      (guestSyscall g c).wp handled () fun _ _ => True := by
    simp only [Prog.wp_always_iff HostCall.nonempty_ans, and_true]
  rw [hwp, guestSyscall, Prog.wp_always_bind_iff HostCall.nonempty_ans, and_iff_right wp_enter_handled]
  simp only [wp_dispatch_handled hc]

/-- The calls of a sequence have a handle exactly when none is served from the root of `proc:`. -/
theorem keepsHandles_iff_sparesRoot (g : Guest) (cs : List Syscall) (hcs : ∀ c ∈ cs, c.sys ∈ descriptorCalls) :
    KeepsHandles g cs ↔ SparesRoot g cs := by
  induction cs generalizing g with
  | nil => exact Iff.rfl
  | cons c cs ih =>
    rw [forall_mem_cons] at hcs
    unfold KeepsHandles SparesRoot
    rw [← runs_guestSyscall_handled hcs.1]
    simp only [imp_and, forall_and, ih _ hcs.2]

/-- A guest whose only descriptors are those of the `proc:` mount and of a file open in it. -/
def procGuest : Guest :=
  { grantedGuest with
    fdsInited := true
    fdtab := Function.update (Function.update (fun _ => none) 3 (some ⟨.proc, -1, none⟩)) 4
      (some ⟨.proc, -1, some 0⟩) }

theorem readOpenFile_keepsHandles : KeepsHandles procGuest [⟨.read, 4, 0x10000, 16, 0, 0⟩] := by
  refine (keepsHandles_iff_sparesRoot _ [⟨.read, 4, 0x10000, 16, 0, 0⟩] (by decide)).mpr
    ⟨?_, fun _ _ _ => trivial⟩
  rintro tr g' hen - ⟨hostFd, hro⟩
  have hpure : Prog.Runs (pure { procGuest with syscalls := 1 }) tr g' := hen
  cases hpure
  cases hro

theorem readRoot_null : ¬∀ (g : Guest) (cs : List Syscall), (∀ c ∈ cs, c.sys ∈ descriptorCalls) →
    KeepsHandles g cs := by
  intro h
  have hca := (runs_guestSyscall_handled (by decide)).mp fun tr r hrun =>
    (h procGuest [⟨.read, 3, 0x10000, 16, 0, 0⟩] (by decide) tr r hrun).1
  exact hca [] _ (.ret _) (.inl (by decide)) ⟨-1, rfl⟩

end Skjegg.Emu
