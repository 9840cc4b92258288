import Skjegg.Emu.Guest

/-!
# Confined guests

A guest that was granted mounts is to reach the host only from the directories of its table. The
`*at` calls keep to that. `GSYS_OPEN` hands the guest's path to `open`, and `GSYS_GETRANDOM` opens
`/dev/urandom`.
-/

namespace Skjegg.Emu

open Skjegg.Lib Prog

/-! ## The property -/

def Guest.Holds (g : Guest) (fd : Int) : Prop := ∃ i e, g.gfdEntry i = some e ∧ e.hostFd = fd

/-- What a confined guest may cause: no path is resolved by the host itself, a confined open starts
at a descriptor of the table, and calls on a last name take a directory that a confined open gave.
The ghost state is the open descriptors that confined opens gave. -/
def beneath (held : Int → Prop) : Protocol HostCall HostCall.Ans (List Int) where
  may opened
    | .open _ _ _ => False
    | .openat _ _ _ _ => False
    | .fstatat _ _ => False
    | .mkdtemp => False
    | .rmdir _ => False
    | .removeScratch _ => False
    | .openBeneath dir _ _ _ => held dir
    | .fstat fd => held fd ∨ fd ∈ opened
    | .mkdirat dir _ _ => dir ∈ opened
    | .unlinkat dir _ _ => dir ∈ opened
    | .fchmodat dir _ _ _ => dir ∈ opened
    | .renameat oldDir _ newDir _ => oldDir ∈ opened ∧ newDir ∈ opened
    | _ => True
  honest _ _ _ := True
  next opened
    | .openBeneath _ _ _ _, fd => if 0 ≤ fd then fd :: opened else opened
    | .close fd, _ => opened.filter (· ≠ fd)
    | _, _ => opened

/-- The host resolves a path for the call. -/
def HostCall.NamesPath : HostCall → Prop
  | .open _ _ _ => True
  | .openat _ _ _ _ => True
  | .openBeneath _ _ _ _ => True
  | .fstatat _ _ => True
  | .mkdirat _ _ _ => True
  | .unlinkat _ _ _ => True
  | .fchmodat _ _ _ _ => True
  | .renameat _ _ _ _ => True
  | .mkdtemp => True
  | .rmdir _ => True
  | .removeScratch _ => True
  | _ => False

/-- One system call keeps to the guest's table, whatever the host answers. -/
def CallConfined (g : Guest) (c : Syscall) : Prop :=
  ∀ tr₀ g₀ tr r, Prog.Runs g.enter tr₀ g₀ → Prog.Runs (dispatch g₀ c) tr r →
    (∀ ev ∈ tr₀, ¬ev.1.NamesPath) ∧ (beneath g₀.Holds).Obeyed [] tr

/-- Between its system calls a guest computes on its memory. -/
inductive GuestOp
  | compute (gm : Gm)
  | call (c : Syscall)

def SequenceConfined : Guest → List GuestOp → Prop
  | _, [] => True
  | g, .compute gm :: ops => SequenceConfined (g.withGm gm) ops
  | g, .call c :: ops =>
    CallConfined g c ∧ ∀ tr r, Prog.Runs (guestSyscall g c) tr r → SequenceConfined r.2 ops

/-- The call is not an `open` with a path that can be read, and not a `getrandom` of at least one
byte. -/
def Syscall.Harmless (c : Syscall) (g : Guest) : Prop :=
  (c.sys = .open → ∀ path s, copyPath g.gm c.a0.toNat ≠ (.ok path, s)) ∧
    (c.sys = .getrandom → c.a1 = 0 ∨ c.a0 = 0)

def SequenceHarmless : Guest → List GuestOp → Prop
  | _, [] => True
  | g, .compute gm :: ops => SequenceHarmless (g.withGm gm) ops
  | g, .call c :: ops =>
    c.Harmless g ∧ ∀ tr r, Prog.Runs (guestSyscall g c) tr r → SequenceHarmless r.2 ops

/-! ## Programs that keep to a protocol -/

/-- The root of the `proc:` mount has a descriptor without an open file. -/
def Guest.RootAt (g : Guest) (fd : Nat) : Prop := ∃ hostFd, g.gfdEntry fd = some ⟨.proc, hostFd, none⟩

/-- The calls on a descriptor or a directory stream. -/
def HostCall.Plain : HostCall → Prop
  | .read _ _ => True
  | .write _ _ => True
  | .poll _ _ => True
  | .lseek _ _ _ => True
  | .dup _ => True
  | .close _ => True
  | .fdopendir _ => True
  | .closedir _ => True
  | .telldir _ => True
  | .readdir _ => True
  | .seekdir _ _ => True
  | .procfsFree _ => True
  | _ => False

/-- The calls that look at the open file of a `proc:` descriptor. -/
def HostCall.Through (h : Option Nat) : HostCall → Prop
  | .procfsRead h' _ => h' = h
  | .procfsLseek h' _ _ => h' = h
  | .procfsGetdent h' => h' = h
  | .procfsRewind h' => h' = h
  | .procfsFstat h' => h' = h
  | _ => False

section Obeys

variable {G α β : Type} {P : Protocol HostCall HostCall.Ans G}

/-- The program keeps to the protocol from any ghost state, and returns in `Q`. -/
def Obeys (P : Protocol HostCall HostCall.Ans G) (p : Host α) (Q : α → Prop) : Prop :=
  ∀ s, p.wp P s fun a _ => Q a

def Stays (held : Int → Prop) (p : Host α) (Q : α → Prop) : Prop :=
  ∀ opened, p.wp (beneath held) opened fun a _ => Q a

variable {Q : α → Prop}

theorem obeys_pure {a : α} (h : Q a) : Obeys P (pure a) Q := fun _ => h

theorem Obeys.bind {p : Host α} {f : α → Host β} {Q' : β → Prop}
    (hp : Obeys P p Q) (hf : ∀ a, Q a → Obeys P (f a) Q') : Obeys P (p >>= f) Q' := by
  intro s
  rw [wp_bind]
  exact wp_mono (hp s) fun a s' ha => hf a ha s'

theorem Obeys.mono {p : Host α} {Q Q' : α → Prop} (hp : Obeys P p Q) (h : ∀ a, Q a → Q' a) : Obeys P p Q' :=
  fun s => wp_mono (hp s) fun a _ ha => h a ha

theorem obeys_ask {h : HostCall} {k : h.Ans → Host α}
    (hmay : ∀ s, P.may s h) (hk : ∀ r, Obeys P (k r) Q) : Obeys P (ask h >>= k) Q := by
  intro s
  exact ⟨hmay s, fun r _ => hk r _⟩

/-- What the calls on a descriptor ask for; a null handle only on the root of `proc:`. -/
structure Lets (P : Protocol HostCall HostCall.Ans G) (root : Prop) : Prop where
  plain : ∀ {q}, q.Plain → ∀ s, P.may s q
  proc : ∀ {h q}, (h = none → root) → q.Through h → ∀ s, P.may s q

theorem Lets.ask {root : Prop} {h : HostCall} {k : h.Ans → Host α} (hP : Lets P root)
    (hk : ∀ r, Obeys P (k r) Q) (hpl : h.Plain := by trivial) : Obeys P (Emu.ask h >>= k) Q :=
  obeys_ask (hP.plain hpl) hk

end Obeys

variable {c : Syscall}

/-! ## The calls -/

section Calls

variable {held : Int → Prop} {g : Guest}

def SameFlag (g : Guest) (r : Int × Guest) : Prop := r.2.confined = g.confined

theorem confined_gfdAlloc (g : Guest) (dev : GuestDev) (fd : Int) :
    (g.gfdAlloc dev fd).2.confined = g.confined := by
  unfold Guest.gfdAlloc
  split <;> rfl

section Descriptors

variable {G : Type} {P : Protocol HostCall HostCall.Ans G} {root : Prop}

section Plain

variable (hP : Lets P root)

include hP

theorem obeys_gfdClose (fd : Nat) : Obeys P (g.gfdClose fd) (SameFlag g) := by
  unfold Guest.gfdClose
  split
  · exact obeys_pure rfl
  split
  · exact hP.ask fun _ => obeys_pure rfl
  · split
    · exact hP.ask fun _ => hP.ask fun _ => obeys_pure rfl
    · exact hP.ask fun _ => obeys_pure rfl

theorem obeys_wouldBlock (hf : Int) (events : Nat) : Obeys P (wouldBlock hf events) fun _ => True :=
  hP.ask fun _ => obeys_pure trivial

theorem obeys_writeLoop (fd : Nat) (hf : Int) (buf len fuel done : Nat) :
    Obeys P (writeLoop fd hf buf len fuel done g) (SameFlag g) := by
  induction fuel generalizing done g with
  | zero => exact obeys_pure rfl
  | succ fuel ih =>
    unfold writeLoop
    split
    · exact obeys_pure rfl
    dsimp only
    split
    · exact obeys_pure rfl
    split
    · exact ih _
    apply Obeys.bind (obeys_wouldBlock hP _ _)
    intro full _
    split
    · exact obeys_pure rfl
    refine hP.ask fun n => ?_
    split
    · exact obeys_pure rfl
    · exact ih _

theorem obeys_sysWrite (fd buf len : Nat) : Obeys P (sysWrite g fd buf len) (SameFlag g) := by
  unfold sysWrite
  dsimp only
  split
  · exact obeys_pure rfl
  · exact obeys_writeLoop hP _ _ _ _ _ _

theorem obeys_readWouldBlock (hf : Int) (len : Nat) : Obeys P (readWouldBlock hf len) fun _ => True := by
  unfold readWouldBlock
  split
  · exact obeys_wouldBlock hP _ _
  · exact obeys_pure trivial

theorem obeys_procDents {h : Option Nat} (hro : h = none → root) (dirp count fuel gpos : Nat) :
    Obeys P (procDents h dirp count fuel gpos g) (SameFlag g) := by
  induction fuel generalizing gpos g with
  | zero => exact obeys_pure rfl
  | succ fuel ih =>
    refine obeys_ask (hP.proc hro rfl) fun r => ?_
    split
    · exact obeys_pure rfl
    · exact obeys_pure rfl
    split
    · refine obeys_ask (hP.proc hro rfl) fun _ => ?_
      apply obeys_pure
      split <;> rfl
    · exact ih _

theorem obeys_hostDents (d dirp count fuel gpos : Nat) :
    Obeys P (hostDents d dirp count fuel gpos g) (SameFlag g) := by
  induction fuel generalizing gpos g with
  | zero => exact obeys_pure rfl
  | succ fuel ih =>
    refine hP.ask fun cookie => ?_
    refine hP.ask fun r => ?_
    split
    · exact obeys_pure rfl
    split
    · refine hP.ask fun _ => ?_
      apply obeys_pure
      split <;> rfl
    · refine hP.ask fun off => ?_
      exact ih _

theorem obeys_hpDiropen (dirfd : Int) : Obeys P (hpDiropen dirfd) fun _ => True := by
  refine hP.ask fun fd => ?_
  split
  · exact obeys_pure trivial
  refine hP.ask fun d => ?_
  split
  · exact obeys_pure trivial
  · exact hP.ask fun _ => obeys_pure trivial

end Plain

variable {fd : Nat}

theorem rootAt_of_proc {e : Gfd} (he : g.gfdEntry fd = some e) (hdev : e.dev = .proc) (h : e.dirp = none) :
    g.RootAt fd := by
  obtain ⟨dev, hostFd, dirp⟩ := e
  cases hdev
  cases h
  exact ⟨hostFd, he⟩

variable (hP : Lets P (g.RootAt fd))

include hP

theorem obeys_sysRead (buf len : Nat) : Obeys P (sysRead g fd buf len) (SameFlag g) := by
  unfold sysRead
  split
  · exact obeys_pure rfl
  rename_i e he
  split
  · next hdev =>
    refine obeys_ask (hP.proc (rootAt_of_proc he hdev) rfl) fun r => ?_
    split
    · exact obeys_pure rfl
    · exact obeys_pure rfl
  split
  · exact obeys_pure rfl
  apply Obeys.bind (obeys_readWouldBlock hP _ _)
  intro empty _
  split
  · exact obeys_pure rfl
  refine hP.ask fun r => ?_
  split
  · exact obeys_pure rfl
  · exact obeys_pure rfl

theorem obeys_seekTo (offset : Int) (whence : Nat) : Obeys P (seekTo g fd offset whence) fun _ => True := by
  unfold seekTo
  split
  · exact obeys_pure trivial
  rename_i e he
  split
  · next hdev => exact fun s =>
      ⟨hP.proc (q := .procfsLseek _ _ _) (rootAt_of_proc he hdev) rfl s, fun _ _ => trivial⟩
  · split
    · exact obeys_pure trivial
    · exact fun s => ⟨hP.plain (q := .lseek _ _ _) trivial s, fun _ _ => trivial⟩

theorem obeys_sysLseek (offset whence : Nat) : Obeys P (sysLseek g fd offset whence) (SameFlag g) :=
  Obeys.bind (obeys_seekTo hP _ _) fun _ _ => obeys_pure rfl

theorem obeys_sysLlseek (hi lo resultp whence : Nat) :
    Obeys P (sysLlseek g fd hi lo resultp whence) (SameFlag g) := by
  apply Obeys.bind (obeys_seekTo hP _ _)
  intro r _
  split
  · exact obeys_pure rfl
  · exact obeys_pure rfl

theorem obeys_sysGetdents64 (dirp count : Nat) : Obeys P (sysGetdents64 g fd dirp count) (SameFlag g) := by
  unfold sysGetdents64
  split
  · exact obeys_pure rfl
  rename_i e he
  split
  · next hdev => exact obeys_procDents hP (rootAt_of_proc he hdev) _ _ _ _
  split
  · exact obeys_hostDents hP _ _ _ _ _
  apply Obeys.bind (obeys_hpDiropen hP _)
  intro d _
  split
  · exact obeys_pure rfl
  · exact obeys_hostDents hP _ _ _ _ _

end Descriptors

theorem lets_beneath (root : Prop) : Lets (beneath held) root := by
  constructor
  · intro q hq s
    cases q <;> trivial
  · intro h q _ hq s
    cases q <;> trivial

theorem stays_writevLoop (fd iov n i total : Nat) :
    Stays held (writevLoop fd iov n i total g) (SameFlag g) := by
  induction n generalizing i total g with
  | zero => exact obeys_pure rfl
  | succ n ih =>
    unfold writevLoop
    split
    · exact obeys_pure rfl
    apply Obeys.bind (obeys_sysWrite (lets_beneath True) _ _ _)
    rintro ⟨r, g'⟩ hfg
    have hfg' : g'.confined = g.confined := hfg
    dsimp only
    split
    · exact obeys_pure hfg'
    · exact Obeys.mono (ih _ _) fun a ha => ha.trans hfg'

theorem stays_grantFd (fd : Int) : Stays held (grantFd g fd) (SameFlag g) := by
  have hfg := confined_gfdAlloc g .hostfs fd
  unfold grantFd
  split
  · next heq =>
    rw [heq] at hfg
    exact obeys_pure hfg
  · next heq =>
    rw [heq] at hfg
    exact obeys_ask (fun _ => trivial) fun _ => obeys_pure hfg

theorem stays_sysClockGettime (clkId tsPtr : Nat) :
    Stays held (sysClockGettime g clkId tsPtr) (SameFlag g) := by
  unfold sysClockGettime
  split
  · exact obeys_pure rfl
  refine obeys_ask (fun _ => trivial) fun t => ?_
  split
  · exact obeys_pure rfl
  · exact obeys_pure rfl

theorem stays_monoNs : Stays held monoNs fun _ => True := by
  refine obeys_ask (fun _ => trivial) fun t => ?_
  split
  · exact obeys_pure trivial
  · exact obeys_pure trivial

theorem stays_startSleep (sec nsec : Nat) :
    Stays held (startSleep g sec nsec) fun g' => g'.confined = g.confined := by
  unfold startSleep
  split
  · exact obeys_pure rfl
  · exact Obeys.bind stays_monoNs fun _ _ => obeys_pure rfl

theorem stays_sysNanosleep (reqPtr : Nat) : Stays held (sysNanosleep g reqPtr) (SameFlag g) := by
  unfold sysNanosleep
  split
  · exact obeys_pure rfl
  dsimp only
  split
  · exact obeys_pure rfl
  split
  · exact obeys_ask (fun _ => trivial) fun _ => obeys_pure rfl
  apply Obeys.bind (stays_startSleep _ _)
  intro g' hfg
  apply Obeys.bind stays_monoNs
  intro now _
  split
  · exact obeys_pure hfg
  · exact obeys_pure hfg

/-! ## The path calls of a confined guest -/

theorem gfdDir_holds (hg : g.confined = true) {dirfd : Nat} {hd : Int} (h : g.gfdDir dirfd = some hd) :
    g.Holds hd ∧ hd ≠ atFdcwd := by
  unfold Guest.gfdDir at h
  split at h
  · cases h
  split at h
  · cases h
  rename_i hpos
  cases h
  constructor
  · unfold Guest.gfdHost at hpos ⊢
    cases he : g.gfdEntry _ with
    | none =>
      rw [he] at hpos
      exact absurd (by decide : (-1 : Int) < 0) hpos
    | some e => exact ⟨dirfd, e, he, rfl⟩
  · intro heq
    rw [heq] at hpos
    exact hpos (by decide)

variable {opened : List Int}

theorem wp_hpParentBeneath {dir : Int} {path : CStr} {Q : Option (Int × CStr) → List Int → Prop}
    (hdir : held dir) (hno : ∀ opened', opened ⊆ opened' → Q none opened')
    (hso : ∀ pf base opened', opened ⊆ opened' → pf ∈ opened' → Q (some (pf, base)) opened') :
    (hpParentBeneath dir path).wp (beneath held) opened Q := by
  unfold hpParentBeneath
  dsimp only
  split
  · exact hno _ (List.Subset.refl _)
  refine ⟨hdir, fun (fd : Int) _ => ?_⟩
  show Q (if fd < 0 then none else some (fd, _)) (if 0 ≤ fd then fd :: opened else opened)
  by_cases hfd : fd < 0
  · rw [if_pos hfd, if_neg (by omega)]
    exact hno _ (List.Subset.refl _)
  · rw [if_neg hfd, if_pos (by omega)]
    exact hso _ _ _ (List.subset_cons_self _ _) List.mem_cons_self

theorem stays_hpStatBeneath {dir : Int} (path : CStr) (hdir : held dir) :
    Stays held (hpStatBeneath dir path) fun _ => True := by
  intro opened
  unfold hpStatBeneath
  refine ⟨hdir, fun (fd : Int) _ => ?_⟩
  show wp _ (if fd < 0 then _ else _) (if 0 ≤ fd then fd :: opened else opened) _
  by_cases hfd : fd < 0
  · rw [if_pos hfd]
    trivial
  · rw [if_neg hfd, if_pos (by omega), wp_bind]
    refine ⟨Or.inr List.mem_cons_self, fun st _ => ?_⟩
    exact ⟨trivial, fun _ _ => trivial⟩

section

variable (hg : g.confined = true)

include hg

theorem stays_sysOpenat (dirfd pathp flags mode : Nat) :
    Stays g.Holds (sysOpenat g dirfd pathp flags mode) (SameFlag g) := by
  unfold sysOpenat
  split
  · exact obeys_pure rfl
  rename_i path s hpa
  dsimp only
  split
  · refine obeys_ask (fun _ => trivial) fun r => ?_
    split
    · exact obeys_pure rfl
    have hfg := confined_gfdAlloc (g.withGm s) .proc (-1)
    split
    · next heq =>
      rw [heq] at hfg
      exact obeys_ask (fun _ => trivial) fun _ => obeys_pure hfg
    · next heq =>
      rw [heq] at hfg
      exact obeys_pure hfg
  · split
    · exact obeys_pure rfl
    rename_i hd hdir
    obtain ⟨hholds, hne⟩ := gfdDir_holds hg hdir
    unfold openIn
    rw [if_neg hne]
    refine obeys_ask (fun _ => hholds) fun fd => ?_
    split
    · exact obeys_pure rfl
    · exact stays_grantFd fd

theorem stays_sysStatx (dirfd pathp flags bufp : Nat) :
    Stays g.Holds (sysStatx g dirfd pathp flags bufp) (SameFlag g) := by
  have hfl : ∀ g' st, g'.confined = g.confined →
      SameFlag g (fillStatx g' bufp st) := by
    intro g' st hfg
    cases st with
    | none | some => exact hfg
  unfold sysStatx
  split
  · split
    · exact obeys_pure rfl
    rename_i e he
    split
    · exact obeys_ask (fun _ => trivial) fun _ => obeys_pure (hfl _ _ rfl)
    split
    · exact obeys_pure rfl
    · exact obeys_ask (fun _ => Or.inl ⟨dirfd, e, he, rfl⟩) fun _ => obeys_pure (hfl _ _ rfl)
  split
  · exact obeys_pure rfl
  rename_i path s hpa
  dsimp only
  split
  · exact obeys_ask (fun _ => trivial) fun _ => obeys_pure (hfl _ _ rfl)
  split
  · exact obeys_pure rfl
  rename_i hd hdir
  obtain ⟨hholds, hne⟩ := gfdDir_holds hg hdir
  unfold statIn
  rw [if_neg hne]
  exact Obeys.bind (stays_hpStatBeneath _ hholds) fun _ _ => obeys_pure (hfl _ _ rfl)

end

theorem stays_namespaceCall {dirfd : Nat} (pathp : Nat) {act : Int → CStr → Host Bool}
    (hdirs : ∀ hd, g.gfdDir dirfd = some hd → held hd ∧ hd ≠ atFdcwd)
    (hact : ∀ dir path opened, dir ∈ opened → (act dir path).wp (beneath held) opened fun _ _ => True) :
    Stays held (namespaceCall g dirfd pathp act) (SameFlag g) := by
  unfold namespaceCall
  split
  · exact obeys_pure rfl
  rename_i path s hpa
  dsimp only
  split
  · exact obeys_pure rfl
  rename_i hd hdir
  obtain ⟨hhd, hne⟩ := hdirs hd hdir
  rw [if_neg hne]
  intro opened
  rw [wp_bind]
  apply wp_hpParentBeneath hhd
  · exact fun _ _ => rfl
  intro pf base opened' _ hpf
  rw [wp_bind]
  refine wp_mono (hact pf _ _ hpf) fun ok _ _ => ?_
  exact ⟨trivial, fun _ _ => rfl⟩

theorem stays_renameBeneath {ho hn : Int} (hho : held ho) (hhn : held hn) (oldpath newpath : CStr) :
    Stays held (renameBeneath g ho hn oldpath newpath) (SameFlag g) := by
  intro opened
  unfold renameBeneath
  rw [wp_bind]
  apply wp_hpParentBeneath hho
  · exact fun _ _ => rfl
  intro opf ob opened1 _ hopf
  show wp _ _ _ _
  rw [wp_bind]
  apply wp_hpParentBeneath hhn
  · exact fun _ _ => ⟨trivial, fun _ _ => rfl⟩
  · intro npf nb opened2 hsub hnpf
    exact ⟨⟨hsub hopf, hnpf⟩, fun _ _ => ⟨trivial, fun _ _ => ⟨trivial, fun _ _ => rfl⟩⟩⟩

theorem stays_sysRenameat2 {od nd : Nat} (oldp newp flags : Nat)
    (hdirs : ∀ hd, g.gfdDir od = some hd ∨ g.gfdDir nd = some hd → held hd ∧ hd ≠ atFdcwd) :
    Stays held (sysRenameat2 g od oldp nd newp flags) (SameFlag g) := by
  unfold sysRenameat2
  split
  · exact obeys_pure rfl
  split
  · exact obeys_pure rfl
  split
  · exact obeys_pure rfl
  rename_i newpath s hpa
  dsimp only
  split
  · next ho hn hod hnd =>
    obtain ⟨hho, hne⟩ := hdirs ho (.inl hod)
    obtain ⟨hhn, hne'⟩ := hdirs hn (.inr hnd)
    rw [if_neg fun h => hne h.1, if_neg fun h => h.elim hne hne']
    exact stays_renameBeneath hho hhn _ _
  · exact obeys_pure rfl

theorem stays_sysSchedYield : Stays held (sysSchedYield g) (SameFlag g) := by
  unfold sysSchedYield
  split
  · exact obeys_pure rfl
  · exact obeys_ask (fun _ => trivial) fun _ => obeys_pure rfl

theorem stays_dispatch (hg : g.confined = true) (hop : c.sys ≠ .open)
    (hrnd : c.sys ≠ .getrandom) : Stays g.Holds (dispatch g c) (SameFlag g) := by
  unfold dispatch
  cases hsys : c.sys with
  | «open» => exact absurd hsys hop
  | getrandom => exact absurd hsys hrnd
  | write => exact obeys_sysWrite (lets_beneath True) _ _ _
  | read => exact obeys_sysRead (lets_beneath _) _ _
  | writev => exact stays_writevLoop _ _ _ _ _
  | brk =>
    apply obeys_pure
    unfold sysBrk SameFlag
    split <;> rfl
  | openat => exact stays_sysOpenat hg _ _ _ _
  | close => exact obeys_gfdClose (lets_beneath True) _
  | lseek => exact obeys_sysLseek (lets_beneath _) _ _
  | llseek => exact obeys_sysLlseek (lets_beneath _) _ _ _ _
  | statx => exact stays_sysStatx hg _ _ _ _
  | mkdirat | unlinkat | fchmodat =>
    exact stays_namespaceCall _ (fun _ => gfdDir_holds hg) fun _ _ _ hdir => ⟨hdir, fun _ _ => trivial⟩
  | renameat2 => exact stays_sysRenameat2 _ _ _ fun _ h => h.elim (gfdDir_holds hg) (gfdDir_holds hg)
  | getdents64 => exact obeys_sysGetdents64 (lets_beneath _) _ _
  | clockGettime => exact stays_sysClockGettime _ _
  | nanosleep => exact stays_sysNanosleep _
  | schedYield => exact stays_sysSchedYield
  | exit | exitGroup | unknown => exact obeys_pure rfl

end Calls

variable {tr : List (Sigma HostCall.Ans)}

/-! ## Sequences -/

theorem enter_runs {g g0 : Guest} (h : Prog.Runs g.enter tr g0) :
    (∀ ev ∈ tr, ¬ev.1.NamesPath) ∧ g0.confined = g.confined ∧ g0.gm = g.gm := by
  let quiet : Protocol HostCall HostCall.Ans Unit := .always fun e => ¬e.NamesPath
  have hone : ∀ (g' : Guest) i, (g'.initFd i).wp quiet () fun g'' _ =>
      g''.confined = g'.confined ∧ g''.gm = g'.gm :=
    fun g' i => ⟨nofun, fun _ _ => ⟨rfl, rfl⟩⟩
  have hini : ∀ g' : Guest, g'.gfdInit.wp quiet () fun g'' _ =>
      g''.confined = g'.confined ∧ g''.gm = g'.gm := by
    intro g'
    unfold Guest.gfdInit
    split
    · exact ⟨rfl, rfl⟩
    rw [wp_bind]
    refine wp_mono (hone g' 0) fun g1 _ h1 => ?_
    rw [wp_bind]
    refine wp_mono (hone g1 1) fun g2 _ h2 => ?_
    rw [wp_bind]
    refine wp_mono (hone g2 2) fun g3 _ h3 => ?_
    exact ⟨h3.1.trans (h2.1.trans h1.1), h3.2.trans (h2.2.trans h1.2)⟩
  have hsnd := wp_sound (hini _) h (Protocol.always_honest tr)
  exact ⟨Protocol.always_obeyed_iff.mp hsnd.1, hsnd.2.1, hsnd.2.2⟩

theorem beneath_honest {held : Int → Prop} (opened : List Int) (tr : List (Sigma HostCall.Ans)) :
    (beneath held).Honest opened tr := by
  induction tr generalizing opened with
  | nil => trivial
  | cons ev tr ih => exact ⟨trivial, ih _⟩

theorem UInt32.toNat_ne_zero {a : UInt32} (h : a ≠ 0) : a.toNat ≠ 0 := by
  intro h0
  exact h (UInt32.toNat_inj.mp h0)

variable {g : Guest}

theorem stays_of_harmless (hg : g.confined = true) (hc : c.Harmless g) :
    Stays g.Holds (dispatch g c) (SameFlag g) := by
  by_cases hop : c.sys = .open
  · unfold dispatch
    simp only [hop]
    unfold sysOpen
    split
    · exact obeys_pure rfl
    · next path s hpa => exact absurd hpa (hc.1 hop _ s)
  by_cases hrnd : c.sys = .getrandom
  · unfold dispatch
    simp only [hrnd]
    unfold sysGetrandom
    split
    · exact obeys_pure rfl
    rename_i hlen
    rcases hc.2 hrnd with h0 | h0
    · exact absurd (congrArg _ h0) hlen
    · have hbuf : c.a0.toNat = 0 := congrArg _ h0
      rw [if_pos hbuf]
      exact obeys_pure rfl
  · exact stays_dispatch hg hop hrnd

theorem hpRandom_opens {len : Nat} (h : len ≠ 0) :
    ∃ k : Int → Host (List UInt8), hpRandom len = ask (.open (text "/dev/urandom") oCloexec 0) >>= k :=
  ⟨_, if_neg h⟩

theorem bind_asks {α β : Type} {p : Host α} {f : α → Host β} {h : HostCall}
    (hp : ∃ k : h.Ans → Host α, p = ask h >>= k) : ∃ k : h.Ans → Host β, p >>= f = ask h >>= k := by
  obtain ⟨k, rfl⟩ := hp
  exact ⟨fun r => k r >>= f, bind_assoc _ _ _⟩

theorem opens_of_not_harmless (hc : ¬c.Harmless g) : ∃ path flags mode, ∃ k : Int → Host (Int × Guest),
      dispatch g c = ask (.open path flags mode) >>= k := by
  unfold Syscall.Harmless at hc
  rw [not_and_or] at hc
  rcases hc with hop | hrnd
  · simp only [Classical.not_imp, not_forall, not_not] at hop
    obtain ⟨hsys, path, s, hpa⟩ := hop
    refine ⟨path, c.a1.toNat, c.a2.toNat,
      fun fd => if fd < 0 then pure (enoent, g.withGm s) else grantFd (g.withGm s) fd, ?_⟩
    unfold dispatch
    simp only [hsys]
    unfold sysOpen
    rw [hpa]
  simp only [Classical.not_imp, not_or] at hrnd
  obtain ⟨hsys, hlen, hbuf⟩ := hrnd
  obtain ⟨n, hn⟩ := Nat.exists_eq_succ_of_ne_zero (UInt32.toNat_ne_zero hlen)
  refine ⟨text "/dev/urandom", oCloexec, 0, ?_⟩
  unfold dispatch
  simp only [hsys]
  unfold sysGetrandom
  rw [if_neg (UInt32.toNat_ne_zero hlen), if_neg (UInt32.toNat_ne_zero hbuf), hn]
  unfold getrandomLoop
  have hmin : min (n.succ - 0) 256 ≠ 0 := by omega
  exact @bind_asks _ _ _ _ (.open _ _ 0) (hpRandom_opens hmin)

theorem callConfined_iff (hg : g.confined = true) (c : Syscall) : CallConfined g c ↔ c.Harmless g := by
  have hgm : ∀ {g0 : Guest}, g0.gm = g.gm → (c.Harmless g0 ↔ c.Harmless g) := by
    intro g0 h
    unfold Syscall.Harmless
    rw [h]
  constructor
  · intro h
    by_contra hc
    obtain ⟨tr0, g0, hen⟩ := exists_runs HostCall.nonempty_ans g.enter
    have hkp := (enter_runs hen).2.2
    obtain ⟨path, flags, mode, k, heq⟩ := opens_of_not_harmless (mt (hgm hkp).mp hc)
    obtain ⟨r, tr, a, hrun⟩ := exists_runs_call HostCall.nonempty_ans (.open _ _ _) k
    have hobeyed : (beneath g0.Holds).Obeyed [] (⟨.open path flags mode, r⟩ :: tr) :=
      (h tr0 g0 _ a hen (heq ▸ hrun)).2
    exact hobeyed.1
  · intro hc tr0 g0 tr r hen hrun
    obtain ⟨hqt, hfg, hkp⟩ := enter_runs hen
    have hsty := stays_of_harmless (hfg.trans hg) ((hgm hkp).mpr hc)
    exact ⟨hqt, (wp_sound (hsty []) hrun (beneath_honest [] tr)).1⟩

theorem confined_of_harmless (hg : g.confined = true) (hc : c.Harmless g) {r : Int × Guest}
    (h : Prog.Runs (guestSyscall g c) tr r) : r.2.confined = true := by
  obtain ⟨tr0, g0, tr1, hen, hrun, rfl⟩ := runs_bind h
  obtain ⟨-, hfg, hkp⟩ := enter_runs hen
  have hc0 : c.Harmless g0 := by
    unfold Syscall.Harmless
    rw [hkp]
    exact hc
  have hsty := stays_of_harmless (hfg.trans hg) hc0
  have hsm : r.2.confined = g0.confined := (wp_sound (hsty []) hrun (beneath_honest [] tr1)).2
  rw [hsm, hfg, hg]

/-- The system calls of a confined guest keep to its table exactly when each is harmless where it is
made. -/
theorem sequenceConfined_iff_harmless (g : Guest) (hg : g.confined = true) (ops : List GuestOp) :
    SequenceConfined g ops ↔ SequenceHarmless g ops := by
  induction ops generalizing g with
  | nil => exact Iff.rfl
  | cons o ops ih =>
    cases o with
    | compute gm => exact ih _ hg
    | call c =>
      unfold SequenceConfined SequenceHarmless
      rw [callConfined_iff hg]
      apply and_congr_right
      intro hc
      exact forall_congr' fun tr => forall_congr' fun r => forall_congr' fun hrun =>
        ih r.2 (confined_of_harmless hg hc hrun)

/-- One page of memory at `0x10000`, which begins with `bytes`. -/
def pageGm (bytes : List UInt8) : Gm :=
  Gm.write ⟨((gmInit 65536 false).map 0x10000 4096 3).2, ⟨0, 0⟩, ⟨fun _ => true, 0⟩⟩ 0x10000 bytes

/-- A confined guest with `/etc/passwd` in its memory and a directory in its table. -/
def grantedGuest : Guest :=
  { freshGuest (pageGm [47, 101, 116, 99, 47, 112, 97, 115, 115, 119, 100, 0]) .little false with
    confined := true
    fdtab := Function.update (fun _ => none) 3 (some ⟨.hostfs, 7, none⟩)
    canPark := true
    parkFd := -1 }

theorem sequenceConfined_iff_harmless_openat :
    SequenceConfined grantedGuest [.call ⟨.openat, 3, 0x10000, 0, 0, 0⟩] :=
  (sequenceConfined_iff_harmless grantedGuest rfl _).mpr ⟨⟨nofun, nofun⟩, fun _ _ _ => trivial⟩

/-- `open("/etc/passwd", O_RDONLY)` of the confined guest goes to the host as it is. -/
theorem open_escapes : ¬∀ g : Guest, g.confined = true → ∀ ops, SequenceConfined g ops := by
  intro h
  have hca := (h grantedGuest rfl [.call ⟨.open, 0x10000, 0, 0, 0, 0⟩]).1
  have hharmless := (callConfined_iff rfl _).mp hca
  exact hharmless.1 rfl [47, 101, 116, 99, 47, 112, 97, 115, 115, 119, 100] _ rfl

end Skjegg.Emu
