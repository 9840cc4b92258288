import Skjegg.Emu.GuestConfine
import Skjegg.Emu.Sched

/-!
# The flag of a guest that calls, is given mounts, or ends

Nothing that a guest does and nothing that is done to it takes its `confined` flag away; a child gets
the flag with the mounts it inherits, and only with them.
-/

namespace Skjegg.Emu

open Skjegg.Lib
open Prog (ensures_pure ensures_bind_any)

section Flag

variable {held : Int → Prop} {α β : Type} {g : Guest}

theorem Stays.ensures {p : Host α} {Q : α → Prop} (h : Stays held p Q) : p.Ensures Q :=
  fun tr _ hrun => (Prog.wp_sound (h []) hrun (beneath_honest [] tr)).2

theorem ensures_initFd (g : Guest) (i : Nat) : (g.initFd i).Ensures fun g' => g'.confined = g.confined :=
  ensures_bind_any fun _ => ensures_pure rfl

theorem ensures_gfdInit (g : Guest) : g.gfdInit.Ensures fun g' => g'.confined = g.confined := by
  unfold Guest.gfdInit
  split
  · exact ensures_pure rfl
  refine (ensures_initFd g 0).bind fun g1 h1 => ?_
  refine (ensures_initFd g1 1).bind fun g2 h2 => ?_
  refine (ensures_initFd g2 2).bind fun g3 h3 => ?_
  exact ensures_pure (h3.trans (h2.trans h1))

theorem ensures_gfdClose (g : Guest) (fd : Nat) : (g.gfdClose fd).Ensures (SameFlag g) :=
  @Stays.ensures (fun _ => True) _ _ _ (obeys_gfdClose (lets_beneath True) fd)

theorem ensures_getrandomLoop (buf len fuel done : Nat) (g : Guest) :
    (getrandomLoop buf len fuel done g).Ensures (SameFlag g) := by
  induction fuel generalizing done g with
  | zero => exact ensures_pure rfl
  | succ fuel ih =>
    unfold getrandomLoop
    split
    · exact ensures_pure rfl
    refine ensures_bind_any fun got => ?_
    cases got with
    | nil => exact ensures_pure rfl
    | cons b bs => exact ih _ _

theorem ensures_dispatch (hg : g.confined = true) (c : Syscall) : (dispatch g c).Ensures (SameFlag g) := by
  by_cases hop : c.sys = .open
  · unfold dispatch
    simp only [hop]
    unfold sysOpen
    split
    · exact ensures_pure rfl
    refine ensures_bind_any fun fd => ?_
    split
    · exact ensures_pure rfl
    · exact (@stays_grantFd (fun _ => True) _ fd).ensures
  by_cases hrnd : c.sys = .getrandom
  · unfold dispatch
    simp only [hrnd]
    unfold sysGetrandom
    split
    · exact ensures_pure rfl
    · split
      · exact ensures_pure rfl
      · exact ensures_getrandomLoop _ _ _ _ _
  · exact (stays_dispatch hg hop hrnd).ensures

theorem ensures_guestSyscall (hg : g.confined = true) (c : Syscall) :
    (guestSyscall g c).Ensures fun r => r.2.confined = true := by
  refine (ensures_gfdInit { g with syscalls := g.syscalls + 1, park := .none }).bind fun g0 h0 => ?_
  have hg0 : g0.confined = true := h0.trans hg
  exact (ensures_dispatch hg0 c).mono fun r hr => hr.trans hg0

theorem ensures_guestMakePipe (g : Guest) (outAddr : Nat) :
    (guestMakePipe g outAddr).Ensures (SameFlag g) := by
  refine (ensures_gfdInit g).bind fun g0 h0 => ?_
  refine ensures_bind_any fun ends => ?_
  cases ends with
  | none => exact ensures_pure h0
  | some e =>
    have h1 := confined_gfdAlloc g0 .hostfs e.1
    dsimp only
    split
    · next g1 hr =>
      rw [hr] at h1
      refine ensures_bind_any fun _ => ensures_bind_any fun _ => ?_
      exact ensures_pure (h1.trans h0)
    rename_i idxR g1 hr
    rw [hr] at h1
    have h2 := confined_gfdAlloc g1 .hostfs e.2
    split
    · next g2 hw =>
      rw [hw] at h2
      refine (ensures_gfdClose g2 _).bind fun r h3 => ensures_bind_any fun _ => ?_
      exact ensures_pure (h3.trans (h2.trans (h1.trans h0)))
    rename_i idxW g2 hw
    rw [hw] at h2
    split
    · refine (ensures_gfdClose _ _).bind fun r h3 => ?_
      refine (ensures_gfdClose _ _).bind fun r' h4 => ?_
      exact ensures_pure (h4.trans (h3.trans (h2.trans (h1.trans h0))))
    · exact ensures_pure (h2.trans (h1.trans h0))

theorem ensures_guestP9Doorbell (g : Guest) (chan : Nat) :
    (guestP9Doorbell g chan).Ensures (SameFlag g) := by
  unfold guestP9Doorbell
  split
  · exact ensures_pure rfl
  · exact ensures_bind_any fun _ => ensures_pure rfl

theorem ensures_guestRelease (g : Guest) : (guestRelease g).Ensures fun g' => g'.confined = g.confined := by
  have hfds : (guestFdsFree g).Ensures fun g' => g'.confined = g.confined := by
    refine Prog.Ensures.bind (Q := fun g' => g'.confined = g.confined) ?_ fun g1 h1 => ?_
    · refine Prog.ensures_foldlM (fun g1 fd _ h1 => ?_) rfl
      unfold closeUsed
      split
      · exact ensures_pure h1
      · exact (ensures_gfdClose g1 fd).bind fun r hr => ensures_pure (hr.trans h1)
    · split
      · exact ensures_pure h1
      · exact ensures_bind_any fun _ => ensures_pure h1
  exact hfds.bind fun g1 h1 => ensures_pure h1

/-! ## Inheritance -/

theorem ensures_installGrant (tbl : Nat) (st : Guest × Nat × List Grant) (gr : Grant) :
    (installGrant tbl st gr).Ensures fun st' => st'.1.confined = st.1.confined := by
  unfold installGrant
  dsimp only
  split
  · exact ensures_pure rfl
  split
  · split
    · exact ensures_pure rfl
    refine ensures_bind_any fun newfd => ?_
    have hal := confined_gfdAlloc st.1 .hostfs newfd
    split
    · exact ensures_pure rfl
    split
    · exact ensures_bind_any fun _ => ensures_pure rfl
    · next idx g' heq =>
      rw [heq] at hal
      exact ensures_pure hal
  · split
    · exact ensures_pure rfl
    · exact ensures_pure rfl

theorem ensures_installScratch (g : Guest) (tbl slot : Nat) :
    (installScratch g tbl slot).Ensures fun r => r.1.confined = g.confined := by
  unfold installScratch
  split
  · exact ensures_pure rfl
  refine ensures_bind_any fun tmpl => ?_
  cases tmpl with
  | none => exact ensures_pure rfl
  | some path =>
    refine ensures_bind_any fun hostfd => ?_
    have hal := confined_gfdAlloc g .hostfs hostfd
    split
    · exact ensures_bind_any fun _ => ensures_pure rfl
    split
    · exact ensures_bind_any fun _ => ensures_bind_any fun _ => ensures_pure rfl
    · next idx g' heq =>
      rw [heq] at hal
      exact ensures_pure hal

theorem confined_installProc (g : Guest) (tbl slot : Nat) :
    (installProc g tbl slot).1.confined = g.confined := by
  have hal := confined_gfdAlloc g .proc (-1)
  unfold installProc
  split
  · rfl
  split
  · next g' heq =>
    rw [heq] at hal
    exact hal
  · next idx g' heq =>
    rw [heq] at hal
    exact hal

structure Inherits (img : List UInt8) (grants : List Grant) : Prop where
  granted : grants ≠ []
  table : symMem img "fs_mounts" ≠ 0
  count : symMem img "fs_mount_count" ≠ 0

theorem ensures_guestInstallGrantsMem {img : List UInt8} {grants : List Grant}
    (h : Inherits img grants) (g : Guest) :
    (guestInstallGrantsMem g img grants).Ensures fun r => r.1.confined = true := by
  unfold guestInstallGrantsMem
  rw [if_neg h.granted, if_neg (not_or.mpr ⟨h.table, h.count⟩)]
  refine (ensures_gfdInit { g with confined := true }).bind fun g1 h1 => ?_
  refine Prog.Ensures.bind (Q := fun st => st.1.confined = true) ?_ fun st h2 => ?_
  · refine Prog.ensures_foldlM (fun st gr _ hst => ?_) h1
    exact (ensures_installGrant _ st gr).mono fun st' hst' => hst'.trans hst
  refine (ensures_installScratch _ _ _).bind fun r h3 => ?_
  apply ensures_pure
  have h4 : (installProc r.1 (symMem img "fs_mounts") r.2).1.confined = true :=
    (confined_installProc r.1 _ _).trans (h3.trans h2)
  split
  · exact h4
  · exact h4

theorem ensures_guestInstallFdmapMem (g : Guest) (img : List UInt8) (parent : Guest)
    (passes : List FdPass) :
    (guestInstallFdmapMem g img parent passes).Ensures fun g' => g'.confined = g.confined := by
  unfold guestInstallFdmapMem
  dsimp only
  split
  · exact ensures_pure rfl
  split
  · exact ensures_pure rfl
  refine (ensures_gfdInit g).bind fun g1 h1 => ?_
  refine Prog.Ensures.bind (Q := fun st => st.1.confined = g.confined) ?_ fun st h2 =>
    ensures_pure h2
  refine Prog.ensures_foldlM (fun st _ _ hst => ?_) h1
  unfold installFd
  dsimp only
  split
  · exact ensures_pure hst
  split
  · exact ensures_pure hst
  refine ensures_bind_any fun newfd => ?_
  have hal := confined_gfdAlloc st.1 .hostfs newfd
  split
  · exact ensures_pure hst
  split
  · exact ensures_bind_any fun _ => ensures_pure hst
  · next idx g' heq =>
    rw [heq] at hal
    exact ensures_pure (hal.trans hst)

end Flag

/-! ## Reading a request -/

theorem confined_greadU32 (g : Guest) (addr : Nat) : (greadU32 g addr).2.confined = g.confined := by
  unfold greadU32
  dsimp only
  split <;> rfl

theorem confined_greadWords (g : Guest) (addrs : List Nat) :
    (greadWords g addrs).2.confined = g.confined := by
  induction addrs generalizing g with
  | nil => rfl
  | cons addr addrs ih =>
    have h := confined_greadU32 g addr
    unfold greadWords
    grind

theorem confined_greadCstrLoop (g : Guest) (addr n : Nat) :
    (greadCstrLoop g addr n).2.confined = g.confined := by
  induction n generalizing g addr with
  | zero => rfl
  | succ n ih =>
    have h := ih (g.withGm (g.gm.load (addr % 2 ^ 32) 1 g.order).2) (addr + 1)
    unfold greadCstrLoop
    dsimp only
    split
    · rfl
    · split
      · rfl
      · split <;> next heq => rw [heq] at h; exact h

theorem confined_greadArgv (g : Guest) (ps argvPtr n i off : Nat) :
    (greadArgv g ps argvPtr n i off).2.confined = g.confined := by
  induction n generalizing g i off with
  | zero => rfl
  | succ n ih =>
    have hptr := confined_greadU32 g (argvPtr + i * ps)
    unfold greadArgv greadCstr
    have hstr := confined_greadCstrLoop
    grind

theorem confined_greadFdmap (g : Guest) (fdmapPtr n i : Nat) :
    (greadFdmap g fdmapPtr n i).2.confined = g.confined := by
  induction n generalizing g i with
  | zero => rfl
  | succ n ih =>
    have hpr := confined_greadWords g [fdmapPtr + i * 8, fdmapPtr + i * 8 + 4]
    unfold greadFdmap
    grind

theorem confined_readRequest (g : Guest) (ps desc : Nat) :
    (readRequest g ps desc).2.confined = g.confined := by
  have hwd := confined_greadU32
  have hwds := confined_greadWords
  have hfdmap := confined_greadFdmap
  have hargv := confined_greadArgv
  have himg : ∀ g desc ps size, (readImageField g desc ps size).2.confined = g.confined := by
    unfold readImageField
    grind
  have hfld : ∀ g desc ps size, (readArgvField g desc ps size).2.confined = g.confined := by
    unfold readArgvField
    grind
  have hflg : ∀ g desc ps size, (readFlagsField g desc ps size).2.confined = g.confined := by
    unfold readFlagsField
    grind
  unfold readRequest
  split
  · grind
  split
  · grind
  split
  · grind
  · split
    · grind
    · split <;> grind

end Skjegg.Emu
