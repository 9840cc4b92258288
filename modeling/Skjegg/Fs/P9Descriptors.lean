import Mathlib.Data.Finset.Insert
import Skjegg.Fs.P9Rules

/-!
# The descriptors of a session

The fid table owns the descriptors the host has given out: each is in exactly one bound fid. An open
of an open fid forgets its descriptor, and a new version forgets all of them and leaves 0 behind in
slots that the end of the session closes.
-/

namespace Skjegg.Fs

open Skjegg.Lib List Prog Finset

/-- The descriptors and directory streams the server holds. -/
structure Held where
  (fds dirs : Finset Nat)
  deriving DecidableEq

def Held.none : Held := ⟨∅, ∅⟩

/-- A descriptor is closed only while it is held, and the host gives out none that is held. -/
def descriptors : Protocol HostCall HostCall.Ans Held where
  may g
    | .close fd => 0 ≤ fd ∧ fd.toNat ∈ g.fds
    | .closedir d => d.handle ∈ g.dirs
    | _ => True
  honest g
    | .open _ _ _, .ok n => n ∉ g.fds
    | .opendir _, .ok n => n ∉ g.dirs
    | _, _ => True
  next g
    | .open _ _ _, .ok n => { g with fds := insert n g.fds }
    | .close fd, _ => { g with fds := g.fds.erase fd.toNat }
    | .opendir _, .ok n => { g with dirs := insert n g.dirs }
    | .closedir d, _ => { g with dirs := g.dirs.erase d.handle }
    | _, _ => g

/-- Every bound fid with a descriptor holds its own, and every held descriptor is in one. -/
structure Owns (s : P9Server) (g : Held) : Prop where
  dirs : g.dirs = ∅
  mem_iff : ∀ n : Nat, n ∈ g.fds ↔ ∃ i, (s.fids i).used ∧ (s.fids i).fd = n
  inj : ∀ i j, (s.fids i).used → (s.fids j).used → 0 ≤ (s.fids i).fd → (s.fids i).fd = (s.fids j).fd → i = j

theorem setFid_of_ne {s : P9Server} {i j : Fin srvMaxfid} {f : SrvFid} (h : j ≠ i) :
    (s.setFid i f).fids j = s.fids j :=
  Function.update_of_ne h ..

section Ownership

variable {s : P9Server} {g : Held} {i : Fin srvMaxfid} {f : SrvFid}

theorem eq_of_holds {j : Fin srvMaxfid} (hnew : f.used → f.fd < 0)
    (hus : ((s.setFid i f).fids j).used) (hfd : 0 ≤ ((s.setFid i f).fids j).fd) :
    j ≠ i ∧ (s.setFid i f).fids j = s.fids j := by
  rcases eq_or_ne j i with rfl | hne
  · rw [setFid_self] at hus hfd
    have := hnew hus
    omega
  · exact ⟨hne, setFid_of_ne hne⟩

section

variable (h : Owns s g)

include h

/-- A slot is let go of: what stays held is what the other slots hold. -/
theorem Owns.setFid_release (hnew : f.used → f.fd < 0) {fds : Finset Nat}
    (hfds : ∀ n, n ∈ fds ↔ n ∈ g.fds ∧ ((s.fids i).used → (s.fids i).fd ≠ n)) :
    Owns (s.setFid i f) { g with fds := fds } := by
  refine ⟨h.dirs, fun n => ?_, fun j k hj hk hfd heq => ?_⟩
  · rw [hfds, h.mem_iff]
    constructor
    · rintro ⟨⟨j, hj, hn⟩, hno⟩
      have hji : j ≠ i := by
        rintro rfl
        exact hno hj hn
      exact ⟨j, by rwa [setFid_of_ne hji], by rwa [setFid_of_ne hji]⟩
    · rintro ⟨j, hj, hn⟩
      have hj' := eq_of_holds hnew hj (by omega)
      rw [hj'.2] at hj hn
      exact ⟨⟨j, hj, hn⟩, fun hi hin => hj'.1 (h.inj j i hj hi (by omega) (by omega))⟩
  · have hj' := eq_of_holds hnew hj hfd
    have hk' := eq_of_holds hnew hk (by omega)
    rw [hj'.2] at hj hfd heq
    rw [hk'.2] at hk heq
    exact h.inj j k hj hk hfd heq

theorem Owns.setFid_idle (hold : (s.fids i).used → (s.fids i).fd < 0)
    (hnew : f.used → f.fd < 0) : Owns (s.setFid i f) g := by
  refine h.setFid_release hnew fun n => (and_iff_left fun hus => ?_).symm
  have := hold hus
  omega

theorem Owns.setFid_close (hus : (s.fids i).used) (hpos : 0 ≤ (s.fids i).fd) (hnew : f.used → f.fd < 0) :
    Owns (s.setFid i f) { g with fds := g.fds.erase (s.fids i).fd.toNat } := by
  refine h.setFid_release hnew fun n => ?_
  rw [mem_erase, and_comm]
  refine and_congr_right fun _ => ⟨fun hne _ heq => hne (by omega), fun hne heq => hne hus (by omega)⟩

theorem Owns.setFid_open {n : Nat} (hfsh : n ∉ g.fds)
    (hold : (s.fids i).used → (s.fids i).fd < 0) (hus : f.used) (hfd : f.fd = n) :
    Owns (s.setFid i f) { g with fds := insert n g.fds } := by
  have hoth : ∀ j, (s.fids j).used → (s.fids j).fd ≠ n :=
    fun j hj heq => hfsh ((h.mem_iff n).mpr ⟨j, hj, heq⟩)
  refine ⟨h.dirs, fun m => ?_, fun j k hj hk hpos heq => ?_⟩
  · rw [mem_insert, h.mem_iff]
    constructor
    · rintro (rfl | ⟨j, hj, hm⟩)
      · exact ⟨i, by rwa [setFid_self], by rwa [setFid_self]⟩
      have hne : j ≠ i := by
        rintro rfl
        have := hold hj
        omega
      exact ⟨j, by rwa [setFid_of_ne hne], by rwa [setFid_of_ne hne]⟩
    · rintro ⟨j, hj, hm⟩
      rcases eq_or_ne j i with rfl | hne
      · rw [setFid_self, hfd] at hm
        exact .inl (by omega)
      · rw [setFid_of_ne hne] at hj hm
        exact .inr ⟨j, hj, hm⟩
  · rcases eq_or_ne j i with rfl | hji
    · rcases eq_or_ne k j with rfl | hki
      · rfl
      · rw [setFid_self, setFid_of_ne hki, hfd] at heq
        rw [setFid_of_ne hki] at hk
        exact absurd heq.symm (hoth k hk)
    · rw [setFid_of_ne hji] at hj hpos heq
      rcases eq_or_ne k i with rfl | hki
      · rw [setFid_self, hfd] at heq
        exact absurd heq (hoth j hj)
      · rw [setFid_of_ne hki] at hk heq
        exact h.inj j k hj hk hpos heq

theorem Owns.held (hus : (s.fids i).used) (hpos : 0 ≤ (s.fids i).fd) : (s.fids i).fd.toNat ∈ g.fds :=
  (h.mem_iff _).mpr ⟨i, hus, by omega⟩

theorem Owns.touch (hus : f.used = (s.fids i).used) (hfd : f.fd = (s.fids i).fd) :
    Owns (s.setFid i f) g := by
  have hsm : ∀ j, ((s.setFid i f).fids j).used = (s.fids j).used ∧
      ((s.setFid i f).fids j).fd = (s.fids j).fd := by
    intro j
    rcases eq_or_ne j i with rfl | hne
    · rw [setFid_self]
      exact ⟨hus, hfd⟩
    · rw [setFid_of_ne hne]
      exact ⟨rfl, rfl⟩
  refine ⟨h.dirs, fun n => ?_, fun j k => ?_⟩
  · simp only [hsm, h.mem_iff]
  · simp only [hsm]
    exact h.inj j k

end

theorem Owns.setIsdir {isdir : Bool} (h : Owns s g) : Owns (s.setIsdir i isdir) g := h.touch rfl rfl

theorem Owns.setPath {path : CStr} (h : Owns s g) : Owns (s.setPath i path) g := h.touch rfl rfl

end Ownership

/-! ## The handlers -/

section Handlers

variable {s : P9Server} {g : Held} {c : WireIn} {rxcap tag : Nat} {i : Fin srvMaxfid}

/-- The program closes only what it holds, and returns in `Q`. -/
abbrev Disposes {α : Type} (g : Held) (p : P9Prog α) (Q : α → Held → Prop) : Prop :=
  p.wp descriptors.anyLoad g Q

abbrev Manages (g : Held) (p : Handler) : Prop := Disposes g p fun r g' => Owns r.1 g'

variable {α : Type} {Q : α → Held → Prop}

theorem disposes_quiet {h : HostCall} {k : h.Ans → P9Prog α}
    (hk : ∀ r, Disposes g (k r) Q) (hmay : descriptors.may g h := by trivial)
    (hnx : ∀ r, descriptors.next g h r = g := by exact fun _ => rfl) : Disposes g (host h >>= k) Q := by
  apply wp_bind.mpr
  apply wp_host_anyLoad.mpr
  refine ⟨hmay, fun r _ => ?_⟩
  rw [hnx r]
  exact hk r

section

variable (h : Owns s g)

include h

theorem disposes_close {p : Prop} [Decidable p] {f : SrvFid} {k : Unit → P9Prog α}
    (hp : p ↔ (s.fids i).used ∧ 0 ≤ (s.fids i).fd)
    (hnew : f.used → f.fd < 0) (hk : ∀ g', Owns (s.setFid i f) g' → Disposes g' (k ()) Q) :
    Disposes g (closeIf p (s.fids i).fd >>= k) Q := by
  unfold closeIf
  by_cases hcls : p
  · rw [if_pos hcls]
    obtain ⟨hus, hpos⟩ := hp.mp hcls
    apply wp_bind.mpr
    exact ⟨⟨hpos, h.held hus hpos⟩, fun _ _ => hk _ (h.setFid_close hus hpos hnew)⟩
  · rw [if_neg hcls]
    rw [hp] at hcls
    exact hk g (h.setFid_idle (fun hus => by by_contra hpos; exact hcls ⟨hus, by omega⟩) hnew)

theorem disposes_bindFid {fid : Nat} :
    Disposes g (bindFid s fid) fun r g' => r.elim (Owns s g') fun x => Owns x.2 g' := by
  simp only [bindFid]
  split
  · exact disposes_close h Iff.rfl (fun _ => by decide) fun _ hs' => hs'
  · exact h

theorem disposes_clunkFid (hus : (s.fids i).used) : Disposes g (clunkFid s i) Owns := by
  apply disposes_close (f := clunked _) h
  · exact ⟨fun hpos => ⟨hus, hpos⟩, fun hbt => hbt.2⟩
  · exact fun hnev => by cases hnev
  · exact fun g' hg' => hg'

end

theorem disposes_dirRecords {d : Dir} (entries : List DirName) (o : WireOut) :
    Disposes g (dirRecords d entries o) fun _ g' => g' = g := by
  induction entries generalizing o with
  | nil => rfl
  | cons e es ih =>
    unfold dirRecords
    split
    · exact ih o
    refine disposes_quiet ?_
    rintro (- | -)
    · exact ih o
    show Disposes g (if o.Full 512 then _ else _) _
    split
    · refine disposes_quiet ?_
      rintro (_ | _)
      · rfl
      · exact ih _
    · exact ih _

theorem disposes_closedir {d : Dir} {a : α} (hd : g.dirs = ∅) (hQ : Q a g) :
    Disposes { g with dirs := insert d.handle g.dirs }
      (host (HostCall.closedir d) >>= fun _ => pure a) Q := by
  refine ⟨mem_insert_self _ _, fun _ _ => ?_⟩
  have hbk : (insert d.handle g.dirs).erase d.handle = g.dirs := by
    rw [erase_insert]
    rw [hd]
    exact notMem_empty _
  show Q a { g with dirs := (insert d.handle g.dirs).erase d.handle }
  rw [hbk]
  exact hQ

theorem disposes_buildDirbuf (h : Owns s g) : Disposes g (buildDirbuf s i) fun r g' => Owns r.2 g' := by
  simp only [buildDirbuf]
  split
  case isTrue => exact h
  case isFalse =>
    apply wp_bind.mpr
    refine ⟨trivial, ?_⟩
    rintro (- | -) -
    · exact h
    refine disposes_quiet ?_
    rintro (_ | _)
    · exact disposes_closedir h.dirs h
    refine disposes_quiet ?_
    intro entries
    apply wp_then (disposes_dirRecords _ _)
    rintro (o | o) - rfl
    all_goals exact disposes_closedir h.dirs (h.touch rfl rfl)

theorem descriptorRules : Rules descriptors.anyLoad Owns Owns where
  ask {_ _ q} _ hq := by cases q <;> first | exact ⟨trivial, fun _ => rfl⟩ | cases hq
  bind _ h := disposes_bindFid h
  clunk h hus := disposes_clunkFid h hus
  setIsdir h := h.setIsdir

theorem disposes_open {path : CStr} {flags : OpenFlags} {perm : Nat} (h : Owns s g)
    (hus : (s.fids i).used) (hid : (s.fids i).fd < 0) :
    Disposes g (host (.open path flags perm)) fun r g' => Owns (s.setFd i (fdOf r)) g' := by
  refine ⟨trivial, ?_⟩
  rintro (- | n) hfsh
  · exact h.setFid_idle (fun _ => hid) fun _ => by show (-1 : Int) < 0; decide
  · exact h.setFid_open hfsh (fun _ => hid) hus rfl

theorem Owns.version (h : Owns s g) (hid : ∀ i, (s.fids i).used → (s.fids i).fd < 0) :
    Owns { s with fids := fun _ => zeroFid } g := by
  refine ⟨h.dirs, fun n => ?_, fun _ _ hnev => by cases hnev⟩
  -- nothing was held, and no slot is bound any more
  rw [h.mem_iff]
  constructor
  · rintro ⟨i, hus, hfd⟩
    have := hid i hus
    omega
  · rintro ⟨i, hus, -⟩
    cases hus

/-- A new version finds no descriptor open, and an open or a create of a file finds its fid not
open. -/
def OpensIdle (s : P9Server) (req : Request) : Prop :=
  let c := req.body
  match P9T.ofCode req.type with
  | some .version => ∀ i, (s.fids i).used → (s.fids i).fd < 0
  | some .open => ∀ i, findFid s (c.low 4) = some i → (s.fids i).fd < 0
  | some .create =>
    ∀ i, findFid s (c.low 4) = some i → (wireSkip c 4).pastStr.low 4 &&& p9Dmdir = 0 → (s.fids i).fd < 0
  | _ => True

theorem handle_manages {req : Request} (h : Owns s g) (hid : OpensIdle s req) :
    Manages g (p9ServerHandle s req rxcap) := by
  have reads := reads_anyLoad descriptors
  have rules := descriptorRules
  refine wp_mono (handle_ends h reads trivial ?_) fun _ _ => Ends.same
  simp only [OpensIdle] at hid
  unfold dispatch
  cases hco : P9T.ofCode _ with
  | none => exact .inl h
  | some t =>
    rw [hco] at hid
    cases t with
    | version => exact tversion_ends h reads trivial (h.version hid)
    | attach => exact tattach_ends h reads trivial rules
    | walk =>
      refine twalk_ends (W := fun _ _ _ => True) h reads trivial rules ?_ (fun _ hs => hs.setPath)
        fun _ _ => trivial
      exact fun _ _ _ _ _ _ _ _ => ⟨⟨trivial, fun _ => rfl⟩, trivial⟩
    | «open» =>
      refine topen_ends h reads trivial rules disposes_buildDirbuf fun i d _ hi => ?_
      apply disposes_open h.setIsdir
      · rw [P9Server.setIsdir, setFid_self]
        exact findFid_used hi
      · rw [P9Server.setIsdir, setFid_self]
        exact hid i hi
    | create =>
      refine tcreate_ends h reads trivial rules fun i _ hi _ => ⟨h.setPath, fun hfi _ _ => ?_⟩
      apply disposes_open h.setPath
      · rw [P9Server.setPath, setFid_self]
        exact findFid_used hi
      · rw [P9Server.setPath, setFid_self]
        exact hid i hi hfi
    | read => exact tread_ends h reads trivial rules
    | write => exact twrite_ends h reads trivial rules fun _ _ => ⟨trivial, rfl⟩
    | clunk => exact tclunk_ends h reads trivial rules
    | remove => exact tremove_ends h reads trivial rules
    | stat => exact tstat_ends h reads trivial rules
    | wstat => exact twstat_ends h reads trivial rules fun _ _ _ => ⟨⟨trivial, fun _ => rfl⟩, h.setPath⟩

theorem serve_disposes {op : Request × Nat} (h : Owns s g) (hid : OpensIdle s op.1) :
    Disposes g (serve s op) Owns :=
  wp_then (handle_manages h hid) fun _ _ hs' => hs'

theorem p9ServerCreate_owns (root : CStr) : Owns (p9ServerCreate root) Held.none := by
  refine ⟨rfl, fun n => ?_, fun _ _ hnev => by cases hnev⟩
  exact ⟨fun h => absurd h (notMem_empty n), by rintro ⟨i, hus, -⟩; cases hus⟩

/-! ## The end of a session -/

/-- No slot has a descriptor that it does not own: every slot a version zeroed was bound again. -/
def Rebound (s : P9Server) : Prop := ∀ i, (s.fids i).used = false → (s.fids i).fd < 0

theorem disposes_closeFids (hsl : Rebound s)
    (hinj : ∀ i j, (s.fids i).used → (s.fids j).used → 0 ≤ (s.fids i).fd →
      (s.fids i).fd = (s.fids j).fd → i = j)
    {is : List (Fin srvMaxfid)} (hnd : is.Nodup) (hdirs : g.dirs = ∅)
    (hlf : ∀ n : Nat, n ∈ g.fds ↔ ∃ i ∈ is, (s.fids i).used ∧ (s.fids i).fd = n) :
    Disposes g (closeFids s is) fun _ g' => g' = Held.none := by
  induction is generalizing g with
  | nil =>
    have hnone : g.fds = ∅ := eq_empty_of_forall_notMem fun n hn => by
      obtain ⟨i, hi, -⟩ := (hlf n).mp hn
      cases hi
    show g = Held.none
    exact Held.mk.injEq .. ▸ ⟨hnone, hdirs⟩
  | cons i is ih =>
    obtain ⟨hi, hnd⟩ := nodup_cons.mp hnd
    unfold closeFids closeIf
    by_cases hpos : 0 ≤ (s.fids i).fd
    · have hus : (s.fids i).used := by
        by_contra hfr
        have := hsl i (Bool.not_eq_true _ ▸ hfr)
        omega
      rw [if_pos hpos]
      apply wp_bind.mpr
      refine ⟨⟨hpos, (hlf _).mpr ⟨i, mem_cons_self, hus, by omega⟩⟩, fun _ _ => ?_⟩
      apply ih (g := { g with fds := g.fds.erase (s.fids i).fd.toNat }) hnd hdirs
      intro n
      rw [mem_erase, hlf]
      constructor
      · rintro ⟨hne, j, hj, hju, hjn⟩
        rcases mem_cons.mp hj with rfl | hj
        · omega
        · exact ⟨j, hj, hju, hjn⟩
      · rintro ⟨j, hj, hju, hjn⟩
        refine ⟨fun heq => hi ?_, j, mem_cons_of_mem _ hj, hju, hjn⟩
        rwa [hinj i j hus hju hpos (by omega)]
    · rw [if_neg hpos]
      apply ih hnd hdirs
      intro n
      rw [hlf]
      constructor
      · rintro ⟨j, hj, hju, hjn⟩
        rcases mem_cons.mp hj with rfl | hj
        · omega
        · exact ⟨j, hj, hju, hjn⟩
      · rintro ⟨j, hj, hju, hjn⟩
        exact ⟨j, mem_cons_of_mem _ hj, hju, hjn⟩

theorem p9ServerDestroy_disposes (h : Owns s g) (hsl : Rebound s) :
    Disposes g (p9ServerDestroy s) fun _ g' => g' = Held.none := by
  apply disposes_closeFids hsl h.inj (nodup_finRange _) h.dirs
  intro n
  rw [h.mem_iff]
  exact ⟨fun ⟨i, hi⟩ => ⟨i, mem_finRange i, hi⟩, fun ⟨i, _, hi⟩ => ⟨i, hi⟩⟩

end Handlers

/-! ## Sessions -/

/-- An exchange of the server with its host. -/
abbrev Exchange := List (Sigma (Reading.Ans HostCall.Ans))

/-- The host gives out no descriptor the server still holds. -/
def HonestHost (tr : Exchange) : Prop := descriptors.anyLoad.Honest Held.none tr

/-- Only held descriptors are closed, and none is held at the end. -/
def ClosesExactly (tr : Exchange) : Prop :=
  descriptors.anyLoad.Obeyed Held.none tr ∧ descriptors.anyLoad.replay Held.none tr = Held.none

/-- A session whose opens find their fids idle, ended with every zeroed slot bound again, closes
exactly what it opened. -/
theorem session_closesExactly (root : CStr) (ops : List (Request × Nat)) (tr tr' : Exchange)
    (s : P9Server) (hrun : Session serve (fun s op => OpensIdle s op.1) (p9ServerCreate root) ops tr s)
    (hslots : Rebound s) (hend : Prog.Runs (p9ServerDestroy s) tr' ())
    (hhost : HonestHost (tr ++ tr')) : ClosesExactly (tr ++ tr') := by
  unfold HonestHost at hhost
  unfold ClosesExactly
  rw [Protocol.honest_append] at hhost
  rw [Protocol.obeyed_append, Protocol.replay_append]
  have hkps := hrun.keeps (fun _ _ _ hs hid => serve_disposes hs hid)
    (p9ServerCreate_owns _) hhost.1
  have hcls := wp_sound (p9ServerDestroy_disposes hkps.2 hslots) hend hhost.2
  exact ⟨⟨hkps.1, hcls.1⟩, hcls.2⟩

instance (g : Held) (e : Reading HostCall) : Decidable (descriptors.anyLoad.may g e) :=
  match e with
  | .load _ _ => isTrue trivial
  | .host (.close _) => inferInstanceAs (Decidable (_ ∧ _))
  | .host (.closedir _) => inferInstanceAs (Decidable (_ ∈ _))
  | .host (.stat _) | .host (.open _ _ _) | .host (.mkdir _ _) | .host (.rmdir _)
  | .host (.unlink _) | .host (.rename _ _) | .host (.opendir _) | .host (.readdir _)
  | .host (.fstatat _ _) | .host (.pread _ _ _) | .host (.pwrite _ _ _) | .host (.malloc _)
  | .host (.realloc _) | .host (.strerror _) | .host .indeterminate => isTrue trivial

instance (g : Held) (e : Reading HostCall) (r : e.Ans HostCall.Ans) :
    Decidable (descriptors.anyLoad.honest g e r) :=
  match e, r with
  | .load _ _, _ => isTrue trivial
  | .host (.open _ _ _), .ok _ => inferInstanceAs (Decidable (_ ∉ _))
  | .host (.opendir _), .ok _ => inferInstanceAs (Decidable (_ ∉ _))
  | .host (.open _ _ _), .error _ | .host (.opendir _), .error _ => isTrue trivial
  | .host (.close _), _ | .host (.closedir _), _ | .host (.stat _), _ | .host (.mkdir _ _), _
  | .host (.rmdir _), _ | .host (.unlink _), _ | .host (.rename _ _), _ | .host (.readdir _), _
  | .host (.fstatat _ _), _ | .host (.pread _ _ _), _ | .host (.pwrite _ _ _), _
  | .host (.malloc _), _ | .host (.realloc _), _ | .host (.strerror _), _
  | .host .indeterminate, _ => isTrue trivial

/-- `Topen` of fid 0 for reading. -/
def openMessage : Request := Request.ofBytes (lowBytes 4 12 ++ [112] ++ replicate 7 0) (by decide)

def freshServer : P9Server := p9ServerCreate []

def attachRun : Exchange × P9Server := (serve freshServer (attachZero, 64)).runIn (calmHost fileMode) ()

def openRun : Exchange × P9Server := (serve attachRun.2 (openMessage, 64)).runIn (calmHost fileMode) ()

def destroyRun : Exchange × Unit := (p9ServerDestroy openRun.2).runIn (calmHost fileMode) ()

theorem session_closesExactly_open :
    ClosesExactly ((attachRun.1 ++ (openRun.1 ++ [])) ++ destroyRun.1) := by
  have hatt : OpensIdle freshServer attachZero := by
    have hty : P9T.ofCode attachZero.type = some .attach := by decide +kernel
    unfold OpensIdle
    rw [hty]
    trivial
  have hop : OpensIdle attachRun.2 openMessage := by
    have hty : P9T.ofCode openMessage.type = some .open := by decide +kernel
    unfold OpensIdle
    rw [hty]
    show ∀ i, findFid attachRun.2 (openMessage.body.low 4) = some i → (attachRun.2.fids i).fd < 0
    decide +kernel
  have hrun : Session serve (fun s op => OpensIdle s op.1) freshServer
      [(attachZero, 64), (openMessage, 64)] (attachRun.1 ++ (openRun.1 ++ [])) openRun.2 :=
    .cons hatt (runs_runIn _ _ ()) (.cons hop (runs_runIn _ _ ()) (.nil _))
  have hsl : Rebound openRun.2 := by
    unfold Rebound
    decide +kernel
  have hhon : HonestHost ((attachRun.1 ++ (openRun.1 ++ [])) ++ destroyRun.1) := by
    unfold HonestHost
    decide +kernel
  exact session_closesExactly [] _ _ _ _ hrun hsl (runs_runIn _ _ ()) hhon

/-- `Tversion` with an empty version string. -/
def versionMessage : Request := Request.ofBytes (lowBytes 4 13 ++ [100] ++ replicate 8 0) (by decide)

def versionRun : Exchange × P9Server :=
  (serve freshServer (versionMessage, 64)).runIn (calmHost fileMode) ()

def versionEnd : Exchange × Unit := (p9ServerDestroy versionRun.2).runIn (calmHost fileMode) ()

/-- A new version on a fresh server, and the end of the session, close descriptor 0 as often as there
are slots. -/
theorem version_closes_zero :
    ¬ ∀ (root : CStr) (ops : List (Request × Nat)) (tr tr' : Exchange) (s : P9Server),
      Session serve (fun _ _ => True) (p9ServerCreate root) ops tr s →
      Prog.Runs (p9ServerDestroy s) tr' () → HonestHost (tr ++ tr') → ClosesExactly (tr ++ tr') := by
  intro hall
  have hrun : Session _ (fun _ _ => True) _ [(versionMessage, 64)]
      (versionRun.1 ++ []) _ :=
    .cons trivial (runs_runIn _ _ ()) (.nil _)
  have hhon : HonestHost ((versionRun.1 ++ []) ++ versionEnd.1) := by
    unfold HonestHost
    decide +kernel
  have hcloses := (hall [] _ _ _ _ hrun (runs_runIn _ _ ()) hhon).1
  revert hcloses
  decide +kernel

end Skjegg.Fs
