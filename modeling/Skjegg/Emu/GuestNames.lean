import Skjegg.Emu.GuestConfine

/-!
# The last name of a confined path

`hp_parent_beneath` leaves the last name of a path to the host call. It refuses a path that ends in a
slash, but `.` and `..` are names to it, and `fchmodat` may go through a link.
-/

namespace Skjegg.Emu

open Skjegg.Lib Prog

/-- `.` and `..` -/
def dots : List CStr := [[46], [46, 46]]

/-- `AT_SYMLINK_NOFOLLOW` -/
def noFollow (flags : Nat) : Bool := flags.testBit 8

/-- The call acts on an entry of the directory it is given, and not on what a link there points to. -/
def HostCall.OnEntry : HostCall → Prop
  | .mkdirat _ name _ => name ≠ [] ∧ name ∉ dots
  | .unlinkat _ name _ => name ≠ [] ∧ name ∉ dots
  | .fchmodat _ name _ flags => (name ≠ [] ∧ name ∉ dots) ∧ noFollow flags
  | .renameat _ old _ new => (old ≠ [] ∧ old ∉ dots) ∧ new ≠ [] ∧ new ∉ dots
  | _ => True

/-- A call on last names that is made in capability directories. -/
def Syscall.InCapability (c : Syscall) (g : Guest) : Prop :=
  let isCapability (dirfd : UInt32) := ∃ hd, g.gfdDir dirfd.toNat = some hd ∧ hd ≠ atFdcwd
  match c.sys with
  | .mkdirat => isCapability c.a0
  | .unlinkat => isCapability c.a0
  | .fchmodat => isCapability c.a0
  | .renameat2 => isCapability c.a0 ∧ isCapability c.a2
  | _ => False

/-- The directories the call is made in. -/
def Syscall.MadeIn (c : Syscall) (g : Guest) (hd : Int) : Prop :=
  g.gfdDir c.a0.toNat = some hd ∨ c.sys = .renameat2 ∧ g.gfdDir c.a2.toNat = some hd

/-- Whatever the host answers, the directories that its calls on last names take were opened beneath the
ones the call is made in, and the names are entries of them. -/
def Syscall.ActsInside (c : Syscall) (g : Guest) : Prop :=
  ∀ tr r, Prog.Runs (dispatch g c) tr r →
    (beneath (c.MadeIn g)).Obeyed [] tr ∧ ∀ ev ∈ tr, ev.1.OnEntry

def lastName (path : CStr) : CStr := (splitPath path).2

/-- No path that the call can read ends in `.` or `..`, and an `fchmodat` of a path that does not
end in a slash asks for links not to be followed. -/
def Syscall.NamesEntries (c : Syscall) (g : Guest) : Prop :=
  let reads (s : Gm) (pathp : UInt32) (P : CStr → Gm → Prop) :=
    ∀ path s', copyPath s pathp.toNat = (.ok path, s') → lastName path = [] ∨ P (lastName path) s'
  match c.sys with
  | .mkdirat => reads g.gm c.a1 fun name _ => name ∉ dots
  | .unlinkat => reads g.gm c.a1 fun name _ => name ∉ dots
  | .fchmodat => reads g.gm c.a1 fun name _ => name ∉ dots ∧ noFollow c.a3.toNat
  | .renameat2 => c.a4 = 0 → reads g.gm c.a1 fun old s =>
    reads s c.a3 fun new _ => old ∉ dots ∧ new ∉ dots
  | _ => True

abbrev inside : Protocol HostCall HostCall.Ans Unit := .always HostCall.OnEntry

theorem wp_hpParentBeneath_inside {dir : Int} {path : CStr} {Q : Option (Int × CStr) → Unit → Prop}
    (hno : Q none ()) : (hpParentBeneath dir path).wp inside () Q ↔
      lastName path = [] ∨ ∀ fd, 0 ≤ fd → Q (some (fd, lastName path)) () := by
  unfold hpParentBeneath
  dsimp only
  split
  next hemp => exact iff_of_true hno (.inl hemp)
  next hnm =>
    rw [or_iff_right (show ¬lastName _ = [] from hnm), wp_bind]
    constructor
    · intro h fd hfd
      have hfnd : Q (if fd < 0 then none else some _) () := h.2 fd trivial
      rwa [if_neg (by omega)] at hfnd
    refine fun h => ⟨trivial, fun (fd : Int) _ => ?_⟩
    show Q (if fd < 0 then none else some (fd, lastName path)) ()
    split
    · exact hno
    · exact h fd (by omega)

variable {g : Guest}

/-- A call that reads a path does what it does only with one that it can read. -/
theorem wp_onPath {s : Gm} {pathp : Nat} {k : CStr → Gm → Host (Int × Guest)} :
    wp inside (match copyPath s pathp with
      | (.error e, s) => pure (e, g.withGm s)
      | (.ok path, s) => k path s) () (fun _ _ => True) ↔
      ∀ path s', copyPath s pathp = (.ok path, s') → (k path s').wp inside () fun _ _ => True := by
  rcases copyPath s _ with ⟨e | path, s'⟩
  · exact iff_of_true trivial nofun
  · exact ⟨fun h _ _ heq => by cases heq; exact h, fun h => h _ s' rfl⟩

theorem wp_namespaceCall_inside {hd : Int} {dirfd pathp : Nat} {act : Int → CStr → Host Bool}
    {P : CStr → Prop} (hdir : g.gfdDir dirfd = some hd) (hcap : hd ≠ atFdcwd)
    -- every call of the family hands its last name to one question
    (hact : ∀ dir name, name ≠ [] → ((act dir name).wp inside () (fun _ _ => True) ↔ P name)) :
    (namespaceCall g dirfd pathp act).wp inside () (fun _ _ => True) ↔
      ∀ path s, copyPath g.gm pathp = (.ok path, s) → lastName path = [] ∨ P (lastName path) := by
  refine wp_onPath.trans (forall₃_congr fun path s _ => ?_)
  dsimp only
  rw [show (g.withGm s).gfdDir _ = some hd from hdir]
  dsimp only
  rw [if_neg hcap, wp_bind, wp_hpParentBeneath_inside trivial]
  have hask : ∀ fd, lastName path ≠ [] → (wp inside (do
      let ok ← act fd (lastName path)
      ask (.close fd)
      pure ((if ok then 0 else enoent : Int), g.withGm s)) () (fun _ _ => True) ↔ P (lastName path)) := by
    intro fd hnm
    rw [← hact fd _ hnm, wp_bind]
    exact ⟨fun h => wp_mono h fun _ _ _ => trivial,
      fun h => wp_mono h fun _ _ _ => ⟨trivial, fun _ _ => trivial⟩⟩
  refine or_congr_right' fun hnm => ⟨fun h => (hask 0 hnm).mp (h 0 le_rfl), fun h fd _ => ?_⟩
  exact (hask fd hnm).mpr h

theorem wp_renameBeneath_inside {ho hn : Int} {old new : CStr} :
    (renameBeneath g ho hn old new).wp inside () (fun _ _ => True) ↔
      lastName old = [] ∨ lastName new = [] ∨ lastName old ∉ dots ∧ lastName new ∉ dots := by
  have hno : ∀ fd, wp inside (do
      ask (.close fd)
      pure (enoent, g)) () (fun _ _ => True) := fun _ => ⟨trivial, fun _ _ => trivial⟩
  unfold renameBeneath
  rw [wp_bind, wp_hpParentBeneath_inside trivial]
  simp only [wp_bind]
  refine or_congr_right' fun hold => ⟨fun h => ?_, fun h fd _ => ?_⟩
  · refine ((wp_hpParentBeneath_inside (hno 0)).mp (h 0 le_rfl)).imp_right fun h => ?_
    exact ⟨(h 0 le_rfl).1.1.2, (h 0 le_rfl).1.2.2⟩
  refine (wp_hpParentBeneath_inside (hno fd)).mpr (or_iff_not_imp_left.mpr fun hnew fd' _ => ?_)
  have hnms := h.resolve_left hnew
  exact ⟨⟨⟨hold, hnms.1⟩, hnew, hnms.2⟩,
    fun _ _ => ⟨trivial, fun _ _ => ⟨trivial, fun _ _ => trivial⟩⟩⟩

theorem wp_sysRenameat2_inside {od oldp nd newp flags : UInt32}
    (hold : ∃ ho, g.gfdDir od.toNat = some ho ∧ ho ≠ atFdcwd)
    (hnew : ∃ hn, g.gfdDir nd.toNat = some hn ∧ hn ≠ atFdcwd) :
    (sysRenameat2 g od.toNat oldp.toNat nd.toNat newp.toNat flags.toNat).wp inside () (fun _ _ => True) ↔
      Syscall.NamesEntries ⟨.renameat2, od, oldp, nd, newp, flags⟩ g := by
  obtain ⟨ho, hodir, hocap⟩ := hold
  obtain ⟨hn, hndir, hncap⟩ := hnew
  unfold sysRenameat2 Syscall.NamesEntries
  dsimp only
  split
  next hflg => exact iff_of_true trivial fun h => absurd (by rw [h]; rfl) hflg
  next hflg =>
    rw [forall_prop_of_true (UInt32.toNat_inj.mp (not_not.mp hflg))]
    refine wp_onPath.trans (forall₃_congr fun old s _ => wp_onPath.trans ?_)
    have hrnm : ∀ new s', _ ↔ _ := fun new s' => @wp_renameBeneath_inside (g.withGm s') ho hn old new
    have hdirs : ∀ s', (g.withGm s').gfdDir od.toNat = some ho ∧ (g.withGm s').gfdDir nd.toNat = some hn :=
      fun _ => ⟨hodir, hndir⟩
    simp only [hdirs, hocap, hncap, false_and, or_self, if_false, hrnm]
    by_cases hnm : lastName old = [] <;> simp [hnm]

theorem wp_dispatch_inside {c : Syscall} (hc : c.InCapability g) :
    (dispatch g c).wp inside () (fun _ _ => True) ↔ c.NamesEntries g := by
  obtain ⟨sys, a0, a1, a2, a3, a4⟩ := c
  cases sys
  case mkdirat | unlinkat =>
    obtain ⟨hd, hdir, hcap⟩ := hc
    refine wp_namespaceCall_inside (P := (· ∉ dots)) hdir hcap fun dir _ hnm => ?_
    exact ⟨fun h => h.1.2, fun h => ⟨⟨hnm, h⟩, fun _ _ => trivial⟩⟩
  case fchmodat =>
    obtain ⟨hd, hdir, hcap⟩ := hc
    refine wp_namespaceCall_inside (P := fun name => name ∉ dots ∧ noFollow _) hdir hcap ?_
    intro dir name hnm
    exact ⟨fun h => ⟨h.1.1.2, h.1.2⟩, fun h => ⟨⟨⟨hnm, h.1⟩, h.2⟩, fun _ _ => trivial⟩⟩
  case renameat2 => exact wp_sysRenameat2_inside hc.1 hc.2
  all_goals exact hc.elim

theorem stays_madeIn {c : Syscall} (hc : c.InCapability g) :
    Stays (c.MadeIn g) (dispatch g c) (SameFlag g) := by
  obtain ⟨sys, a0, a1, a2, a3, a4⟩ := c
  have hcap {dirfd : UInt32} {hd : Int} (hdir : ∃ hd, g.gfdDir dirfd.toNat = some hd ∧ hd ≠ atFdcwd)
      (h : g.gfdDir dirfd.toNat = some hd) : hd ≠ atFdcwd := by
    obtain ⟨hd', hdir', hne⟩ := hdir
    rwa [Option.some.inj (h.symm.trans hdir')]
  cases sys
  case mkdirat | unlinkat | fchmodat =>
    exact stays_namespaceCall _ (fun _ h => ⟨.inl h, hcap hc h⟩) fun _ _ _ hdir => ⟨hdir, fun _ _ => trivial⟩
  case renameat2 =>
    refine stays_sysRenameat2 _ _ _ fun _ h => ⟨h.imp_right fun h => ⟨rfl, h⟩, ?_⟩
    exact h.elim (hcap hc.1) (hcap hc.2)
  all_goals exact hc.elim

/-- Exactly the calls of `NamesEntries` act only inside the directories they are made in. -/
theorem actsInside_iff_namesEntries (g : Guest) (c : Syscall) (hc : c.InCapability g) :
    c.ActsInside g ↔ c.NamesEntries g := by
  rw [← wp_dispatch_inside hc, wp_always_iff HostCall.nonempty_ans]
  refine forall₃_congr fun tr r hrun => ?_
  have hdirs := (wp_sound (stays_madeIn hc []) hrun (beneath_honest [] tr)).1
  rw [and_iff_right hdirs, and_true]

theorem unlinkat_passwd_actsInside :
    Syscall.InCapability ⟨.unlinkat, 3, 0x10000, 0, 0, 0⟩ grantedGuest ∧
    Syscall.ActsInside ⟨.unlinkat, 3, 0x10000, 0, 0, 0⟩ grantedGuest := by
  have hc : Syscall.InCapability ⟨.unlinkat, 3, 0x10000, 0, 0, 0⟩ grantedGuest := ⟨7, rfl, by decide⟩
  refine ⟨hc, (actsInside_iff_namesEntries _ _ hc).mpr ?_⟩
  intro path s hrd
  obtain rfl : [47, 101, 116, 99, 47, 112, 97, 115, 115, 119, 100] = path :=
    Except.ok.inj (congrArg Prod.fst hrd)
  exact .inr (show _ ∉ dots by decide)

/-- With links not followed, `fchmodat(3, "..")` changes the mode of the directory above the one granted. -/
theorem fchmodat_dotdot_leaves : ¬∀ (g : Guest) (c : Syscall), c.InCapability g → c.ActsInside g := by
  intro h
  let g := { grantedGuest with gm := grantedGuest.gm.write 0x10000 [46, 46, 0] }
  have hc : Syscall.InCapability ⟨.fchmodat, 3, 0x10000, 0o777, 0x100, 0⟩ g := ⟨7, rfl, by decide⟩
  have hnms := (wp_dispatch_inside hc).mp ((wp_always_iff HostCall.nonempty_ans).mpr
    fun tr r hrun => ⟨(h g _ hc tr r hrun).2, trivial⟩)
  exact (hnms [46, 46] _ rfl).elim (by decide) fun h => h.1 (by decide)

end Skjegg.Emu
