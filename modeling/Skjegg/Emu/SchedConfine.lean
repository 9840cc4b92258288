import Skjegg.Emu.SchedTable

/-!
# Confinement along the process tree

A spawned process is confined by the mounts it inherits. `SKJ_SYS_SPAWN` shares none, so it makes an
unconfined child of a confined parent.
-/

namespace Skjegg.Emu

open Skjegg.Lib

namespace Sched

def AllConfined (S : Sched) : Prop := ∀ i p, S.procs i = some p → p.g.confined = true

theorem AllConfined.step {S S' : Sched} (hS : S.AllConfined)
    (h : TableStep (fun c => c.g.confined = true) (fun _ => True) S S') : S'.AllConfined := by
  intro i q hq
  rcases h.origin hq with ⟨p, hp, hsm⟩ | ⟨-, -, -, -, hcf⟩
  · exact hsm.confined (hS i p hp)
  · exact hcf

theorem Started.allConfined {S : Sched} {root : Proc} (h : S.Started root)
    (hro : root.g.confined = true) : S.AllConfined := by
  intro i p hp
  rw [(h.eq_root hp).2]
  exact hro

end Sched

def sysSpawn : UInt32 := 0x000f0003
def sysSpawnv : UInt32 := 0x000f0006
def sysKill : UInt32 := 0x000f0008

/-- An event that is no `SKJ_SYS_SPAWN`, and no well-formed `SKJ_SYS_SPAWNV` but one that shares
mounts, of a caller that has some, with an image that links the mount table. -/
def Machine.Bequeaths (M : Machine) : Event → Prop
  | .act (.priv nr arg0 _) => ∀ slot p, M.phase = .slice slot → M.S.procs slot = some p →
      nr ≠ sysSpawn ∧ (nr = sysSpawnv → ∀ req S', M.S.spawnRequest p arg0.toNat = (some req, S') →
        Sched.shareMounts req.flags = true ∧ Inherits req.image p.grants)
  | _ => True

theorem Machine.Bequeaths.welcome {M : Machine} {ev : Event} (h : M.Bequeaths ev) :
    M.Welcome (fun c => c.g.confined = true) ev := by
  cases ev with
  | act a =>
    cases a with
    | priv nr arg0 arg1 =>
      intro slot hph p hp
      obtain ⟨hspawn, hspawnv⟩ := h _ p hph hp
      constructor
      · intro hnr
        exact absurd hnr hspawn
      · intro hnr req S' hreq c hcf
        obtain ⟨hshr, hinh⟩ := hspawnv hnr req S' hreq
        exact hcf hshr hinh
    | _ => exact fun _ _ => trivial
  | _ => trivial

/-- In every run from a confined root in which every spawn shares mounts, every process is confined in
every state. -/
theorem Machine.allConfined_of_bequeaths {S : Sched} {root : Proc} (hS : S.Started root)
    (hroot : root.g.confined = true) {evs : List Event} {tr : List (Sigma HostCall.Ans)} {M : Machine}
    (hrun : Session Machine.step Machine.Bequeaths ⟨S, .turn 0⟩ evs tr M) : M.S.AllConfined := by
  have hwelcome := hrun.mono fun _ _ h => Machine.Bequeaths.welcome h
  refine (Machine.run_keeps (fun S S' _ hst h => ?_) hwelcome hS.tidy ?_).2
  · exact h.step hst
  · exact hS.allConfined hroot

/-! ## A child that is not confined -/

/-- A RISC-V executable of one segment, the file itself, that links a mount table behind it. -/
def childImage : List UInt8 :=
  -- the header
  [127, 69, 76, 70, 1, 1, 1, 0, 0, 0, 0, 0, 0, 0, 0, 0, 2, 0, 243, 0, 1, 0, 0, 0, 84, 0, 2, 0,
    52, 0, 0, 0, 160, 0, 0, 0, 0, 0, 0, 0, 52, 0, 32, 0, 1, 0, 40, 0, 3, 0, 0, 0] ++
  -- the program header
  [1, 0, 0, 0, 0, 0, 0, 0, 0, 0, 2, 0, 0, 0, 2, 0, 24, 1, 0, 0, 24, 1, 0, 0, 7, 0, 0, 0, 0, 16, 0, 0] ++
  -- the symbols
  [0, 0, 0, 0, 0, 0, 0, 0, 0, 0, 0, 0, 0, 0, 0, 0, 1, 0, 0, 0, 0, 2, 2, 0, 0, 0, 0, 0, 0, 0, 0,
    0, 11, 0, 0, 0, 0, 3, 2, 0, 0, 0, 0, 0, 0, 0, 0, 0] ++
  -- their names
  [0, 102, 115, 95, 109, 111, 117, 110, 116, 115, 0, 102, 115, 95, 109, 111, 117, 110, 116, 95,
    99, 111, 117, 110, 116, 0, 0, 0] ++
  -- the section headers
  [0, 0, 0, 0, 0, 0, 0, 0, 0, 0, 0, 0, 0, 0, 0, 0, 0, 0, 0, 0, 0, 0, 0, 0, 0, 0, 0, 0, 0, 0, 0,
    0, 0, 0, 0, 0, 0, 0, 0, 0, 0, 0, 0, 0, 2, 0, 0, 0, 0, 0, 0, 0, 0, 0, 0, 0, 84, 0, 0, 0, 48,
    0, 0, 0, 2, 0, 0, 0, 0, 0, 0, 0, 0, 0, 0, 0, 16, 0, 0, 0, 0, 0, 0, 0, 3, 0, 0, 0, 0, 0, 0,
    0, 0, 0, 0, 0, 132, 0, 0, 0, 26, 0, 0, 0, 0, 0, 0, 0, 0, 0, 0, 0, 0, 0, 0, 0, 0, 0, 0, 0]

/-- A request that shares mounts with the image at `0x10000`. -/
def shareRequest : List UInt8 :=
  [32, 0, 0, 0, 0, 0, 1, 0, 24, 1, 0, 0, 0, 0, 0, 0, 0, 0, 0, 0, 1, 0, 0, 0, 0, 0, 0, 0, 0, 0, 0, 0]

def rootMem : GuestMem :=
  { gmInit (2 ^ 26) true with
    dir := fun page => if page = 0x10 then some 0 else none
    leaf := fun _ => true
    block := fun _ off => if off < 0x200 then childImage.getD off 0 else shareRequest.getD (off - 0x200) 0
    regions := [⟨0x10000, 4096, 3⟩]
    committed := 4096 }

/-- The table of a RISC-V core, with a limit of 100 instructions. -/
def emptySched : Sched where
  procs _ := none
  slotGen _ := 0
  nprocs := 0
  o := ⟨2 ^ 26, 65536, 65536, 100, 0, false, none⟩
  ops := ⟨243, .little, false, none⟩
  pool := ⟨4096, 0⟩
  calloc := ⟨fun _ => true, 1⟩
  vdso := .untried
  insns := 0
  limited := false
  made := 0
  freed := []

/-- A confined root with one mount. -/
def rootProc : Proc :=
  let p := emptySched.newProc 0 0 rootMem
  { p with g := { p.g with confined := true, canPark := true }, handle := 1, grants := [⟨[104], 2, 5⟩] }

def rootSched : Sched :=
  { emptySched with procs := Function.update (fun _ => none) 0 (some rootProc), nprocs := 1, made := 1 }

theorem rootSched_started : rootSched.Started rootProc :=
  ⟨rfl, rfl, rfl, rfl, rfl, rfl, rfl, rfl, rfl, rfl, rfl, .inl rfl⟩

/-- The run of the root in which the host refuses everything. -/
def rootRun (evs : List Event) : Machine := sessionIn HostCall.refusal Machine.step ⟨rootSched, .turn 0⟩ evs

theorem rootRun_session (evs : List Event) :
    ∃ tr, Session Machine.step (fun _ _ => True) ⟨rootSched, .turn 0⟩ evs tr (rootRun evs) :=
  exists_session_sessionIn _ _ _ _

def spawnEvents : List Event := [.tick, .act (.priv sysSpawn 0x10000 280)]

theorem spawn_unconfined : ¬∀ (S : Sched) (root : Proc) (evs : List Event)
    (tr : List (Sigma HostCall.Ans)) (M : Machine), S.Started root → root.g.confined = true →
    Session Machine.step (fun _ _ => True) ⟨S, .turn 0⟩ evs tr M → M.S.AllConfined := by
  intro h
  obtain ⟨tr, hrun⟩ := rootRun_session spawnEvents
  have hall := h _ _ _ _ _ rootSched_started rfl hrun
  have hchild : ((rootRun spawnEvents).S.procs 1).map (fun p => p.g.confined) = some false := by
    decide +kernel
  obtain ⟨p, hp, hcf⟩ := Option.map_eq_some_iff.mp hchild
  rw [hall 1 p hp] at hcf
  cases hcf

def shareEvent : Event := .act (.priv sysSpawnv 0x10200 0)

theorem shareEvent_bequeaths : Machine.Bequeaths ⟨rootSched, .slice 0⟩ shareEvent := by
  intro slot p hph hp
  cases hph
  cases hp
  refine ⟨by decide, fun _ req S' hreq => ?_⟩
  have hrd : ((rootSched.spawnRequest rootProc 0x10200).1.map fun req =>
      Sched.shareMounts req.flags && symMem req.image "fs_mounts" != 0 &&
        symMem req.image "fs_mount_count" != 0) = some true := by
    decide +kernel
  have hfst : (rootSched.spawnRequest rootProc 0x10200).1 = some req := congrArg _ hreq
  rw [hfst] at hrd
  simp only [Option.map_some, Option.some.injEq, Bool.and_eq_true, bne_iff_ne] at hrd
  exact ⟨hrd.1.1, by decide, hrd.1.2, hrd.2⟩

/-- The scheduler once the root has shared its mounts. -/
def sharedSched : Machine :=
  ((Machine.step ⟨rootSched, .slice 0⟩ shareEvent).runIn (fun u h => (HostCall.refusal h, u)) ()).2

theorem allConfined_of_bequeaths_share :
    (sharedSched.S.procs 1).isSome = true ∧ sharedSched.S.AllConfined := by
  constructor
  · decide +kernel
  have htick : Machine.Bequeaths ⟨rootSched, .turn 0⟩ .tick := trivial
  have hbeg : Prog.Runs (Machine.step ⟨rootSched, .turn 0⟩ .tick) [] ⟨rootSched, .slice 0⟩ := .ret _
  have hshr : Prog.Runs (Machine.step ⟨rootSched, .slice 0⟩ shareEvent) _ sharedSched :=
    Prog.runs_runIn _ _ ()
  exact Machine.allConfined_of_bequeaths rootSched_started rfl
    (.cons htick hbeg (.cons shareEvent_bequeaths hshr (.nil _)))

end Skjegg.Emu
