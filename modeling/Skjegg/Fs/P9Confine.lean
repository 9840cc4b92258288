import Skjegg.Fs.P9Paths
import Skjegg.Fs.P9Rules

/-!
# The server stays under its root

Every handler asks only about paths under the root and leaves relative paths in the fid table, as
long as no appended name is cut short and no new name leaves the directory.
-/

namespace Skjegg.Fs

open Skjegg.Lib List Prog

def HostCall.paths : HostCall → List CStr
  | .stat path => [path]
  | .open path _ _ => [path]
  | .mkdir path _ => [path]
  | .rmdir path => [path]
  | .unlink path => [path]
  | .rename old new => [old, new]
  | .opendir path => [path]
  | .fstatat d name => [d.path ++ slash :: name]
  | _ => []

def HostCall.Confined (root : CStr) (h : HostCall) : Prop := ∀ path ∈ h.paths, UnderRoot root path

structure FidIn (root : CStr) (f : SrvFid) : Prop where
  isRel : IsRel f.path
  fits : Fits root f.path

structure SessionIn (root : CStr) (s : P9Server) : Prop where
  root_eq : s.root = root
  root_lt : root.length < srvPathmax
  fids : ∀ i, FidIn root (s.fids i)

variable {α : Type} {q : HostCall} {path : CStr} {f : SrvFid}

section Handlers

variable {root : CStr} {s : P9Server} {c : WireIn} {rxcap tag : Nat} {i : Fin srvMaxfid}

/-- The program asks only about paths under the root, and returns in `Q`. -/
abbrev Stays {α : Type} (root : CStr) (p : P9Prog α) (Q : α → Prop) : Prop :=
  p.wp (Protocol.always (HostCall.Confined root)).anyLoad () fun a _ => Q a

/-- The handler stays under the root and keeps the session there. -/
abbrev Keeps (root : CStr) (p : Handler) : Prop := Stays root p fun r => SessionIn root r.1

variable {Q : α → Prop}

theorem stays_pure {a : α} (h : Q a) : Stays root (pure a) Q := h

theorem stays_host {k : q.Ans → P9Prog α}
    (hpth : q.Confined root) (hk : ∀ r, Stays root (k r) Q) : Stays root (host q >>= k) Q :=
  wp_bind.mpr (wp_host_always.mpr ⟨hpth, hk⟩)

theorem stays_quiet {k : q.Ans → P9Prog α}
    (hpth : q.paths = []) (hk : ∀ r, Stays root (k r) Q) : Stays root (host q >>= k) Q :=
  stays_host (by rw [HostCall.Confined, hpth]; simp) hk

theorem confined_one (hpth : q.paths = [path]) (hund : UnderRoot root path) : q.Confined root := by
  rw [HostCall.Confined, hpth]
  simpa using hund

section

variable (h : SessionIn root s)

include h

theorem SessionIn.setFid (hf : FidIn root f) : SessionIn root (s.setFid i f) := by
  refine ⟨h.root_eq, h.root_lt, fun j => ?_⟩
  show FidIn root (Function.update s.fids i f j)
  rcases eq_or_ne j i with rfl | hne
  · rwa [Function.update_self]
  · rw [Function.update_of_ne hne]
    exact h.fids j

theorem SessionIn.touch (hf : f.path = (s.fids i).path) : SessionIn root (s.setFid i f) :=
  h.setFid ⟨hf ▸ (h.fids i).isRel, hf ▸ (h.fids i).fits⟩

theorem SessionIn.setIsdir {isdir : Bool} : SessionIn root (s.setIsdir i isdir) := h.touch rfl

theorem SessionIn.setFd {fd : Int} : SessionIn root (s.setFd i fd) := h.touch rfl

theorem SessionIn.setPath (hrel : IsRel path)
    (hft : Fits root path) : SessionIn root (s.setPath i path) :=
  h.setFid ⟨hrel, hft⟩

theorem SessionIn.hostPath {rel : CStr} (hrel : IsRel rel)
    (hft : Fits root rel) : UnderRoot root (hostPath s.root rel srvPathmax) := by
  rw [h.root_eq]
  exact hostPath_underRoot h.root_lt hft hrel

end

theorem fidIn_nil (h : f.path = []) : FidIn root f := ⟨h ▸ isRel_nil, .inl h⟩

theorem stays_closeIf {fd : Int} {p : Prop} [Decidable p] {k : Unit → P9Prog α}
    (hk : Stays root (k ()) Q) : Stays root (closeIf p fd >>= k) Q := by
  unfold closeIf
  by_cases hp : p
  · rw [if_pos hp]
    exact stays_quiet rfl fun _ => hk
  · rw [if_neg hp]
    exact hk

theorem stays_bindFid {fid : Nat} (h : SessionIn root s) :
    Stays root (bindFid s fid) fun r => r.elim (SessionIn root s) fun x => SessionIn root x.2 := by
  simp only [bindFid]
  split
  · exact stays_closeIf (h.setFid (fidIn_nil rfl))
  · exact h

theorem stays_dirRecords {d : Dir} (hd : UnderRoot root d.path) (entries : List DirName)
    (o : WireOut) : Stays root (dirRecords d entries o) fun _ => True := by
  induction entries generalizing o with
  | nil => trivial
  | cons e es ih =>
    unfold dirRecords
    split
    case isTrue => exact ih o
    case isFalse hdots =>
      have hnm : Component e.name :=
        ⟨e.ne_nil, fun h => hdots (.inl h), fun h => hdots (.inr h), e.no_slash⟩
      apply stays_host (confined_one rfl (hd.entry hnm))
      rintro (- | -)
      · exact ih o
      show Stays root (if o.Full 512 then _ else _) _
      by_cases hfu : o.Full 512
      · rw [if_pos hfu]
        apply stays_quiet rfl
        intro grown
        cases grown
        · exact stays_pure trivial
        · exact ih _
      · rw [if_neg hfu]
        exact ih _

theorem stays_buildDirbuf (h : SessionIn root s) :
    Stays root (buildDirbuf s i) fun r => SessionIn root r.2 := by
  have hund := h.hostPath (h.fids i).isRel (h.fids i).fits
  simp only [buildDirbuf]
  split
  case isTrue => exact h
  case isFalse =>
    apply stays_host (confined_one rfl hund)
    rintro (- | -)
    · exact h
    apply stays_quiet rfl
    rintro (_ | _)
    · exact stays_quiet rfl fun _ => h
    apply stays_quiet rfl
    intro entries
    apply wp_then (stays_dirRecords hund _ _)
    rintro (o | o) _ -
    all_goals exact stays_quiet rfl fun _ => h.touch rfl

theorem confineRules (root : CStr) : Rules (Protocol.always (HostCall.Confined root)).anyLoad
    (fun s _ => SessionIn root s) (fun s _ => SessionIn root s) where
  ask {s _ q} h hq := by
    have hown : ∀ i, UnderRoot root (hostPath s.root (s.fids i).path srvPathmax) :=
      fun i => h.hostPath (h.fids i).isRel (h.fids i).fits
    refine ⟨?_, fun _ => rfl⟩
    cases q with
    | stat path =>
      rcases hq with rfl | ⟨i, rfl⟩
      · exact confined_one rfl (h.root_eq ▸ underRoot_root _)
      · exact confined_one rfl (hown i)
    | mkdir path _ | rmdir path | unlink path =>
      obtain ⟨i, rfl⟩ := hq
      exact confined_one rfl (hown i)
    | pread _ _ _ | pwrite _ _ _ | strerror _ | indeterminate => exact fun _ hpa => by cases hpa
    | «open» _ _ _ | rename _ _ | opendir _ | readdir _ | fstatat _ _ | closedir _ | close _ | malloc _
    | realloc _ => cases hq
  bind _ h := stays_bindFid h
  clunk h _ := stays_closeIf (h.setFid (fidIn_nil rfl))
  setIsdir h := h.setIsdir

def WalkFits (root : CStr) : Nat → WireIn → CStr → Prop
  | 0, _, _ => True
  | n + 1, c, cur =>
    ∃ name, c.str (some 256) = some name ∧ StepFits root cur name ∧
      ∀ cur', pathStep cur name = some cur' → WalkFits root n c.pastStr cur'

theorem stays_open {flags : OpenFlags} {perm : Nat} {Q : Except Nat Nat → Prop}
    (hund : UnderRoot root path) (hQ : ∀ r, Q r) : Stays root (host (.open path flags perm)) Q :=
  wp_host_always.mpr ⟨confined_one rfl hund, hQ⟩

section

variable (h : SessionIn root s)

include h

theorem walkRule : WalkRule (Protocol.always (HostCall.Confined root)).anyLoad () s.root
    fun n c cur => IsRel cur ∧ Fits root cur ∧ WalkFits root n c cur := by
  rintro n c cur name cur' ⟨hrel, hft, x, hx, hst, hrs⟩ hnm hcur
  cases hnm x hx
  have hnx := pathStep_isRel hrel hft hst hcur
  exact ⟨⟨confined_one rfl (h.hostPath hnx.1 hnx.2), fun _ => rfl⟩, hnx.1, hnx.2, hrs _ hcur⟩

theorem create_stays {i : Fin srvMaxfid} {read : Option CStr}
    (hnm : ∀ name, read = some name → StepFits root (s.fids i).path name)
    (hst : pathStep (s.fids i).path (read.getD []) = some path) : IsRel path ∧ Fits root path := by
  have hf := h.fids i
  cases read with
  -- the empty name is no step
  | none => exact pathStep_isRel hf.isRel hf.fits (fun hc => absurd rfl hc.ne_nil) hst
  | some name => exact pathStep_isRel hf.isRel hf.fits (hnm _ rfl) hst

theorem rename_stays {i : Fin srvMaxfid} {newname : CStr} (hne : newname ≠ [])
    (hnm : IsRel newname ∧ Fits root (sibling (s.fids i).path newname)) :
    let newrel := renamed (s.fids i).path newname
    Asks (Protocol.always (HostCall.Confined root)).anyLoad ()
        (.rename (hostPath s.root (s.fids i).path srvPathmax) (hostPath s.root newrel srvPathmax)) ∧
      SessionIn root (s.setPath i (snprintf srvPathmax newrel)) := by
  have hf := h.fids i
  have hrel := isRel_sibling hf.isRel hnm.1 hne
  simp only [renamed_eq_sibling hf.fits hnm.2, hnm.2.snprintf_eq]
  refine ⟨⟨fun path hpa => ?_, fun _ => rfl⟩, h.setPath hrel hnm.2⟩
  rcases mem_pair.mp hpa with rfl | rfl
  · exact h.hostPath hf.isRel hf.fits
  · exact h.hostPath hrel hnm.2

end

/-- What keeps a message under the root: its walk and create names fit, and it renames to a relative
path that fits. -/
def NamesStay (s : P9Server) (req : Request) : Prop :=
  let c := req.body
  match P9T.ofCode req.type with
  | some .walk =>
    ∀ i, findFid s (c.low 4) = some i →
      WalkFits s.root ((wireSkip (wireSkip c 4) 4).low 2) (wireSkip (wireSkip (wireSkip c 4) 4) 2)
        (s.fids i).path
  | some .create =>
    ∀ i name, findFid s (c.low 4) = some i → (wireSkip c 4).str (some 256) = some name →
      StepFits s.root (s.fids i).path name
  | some .wstat =>
    let newname := newnameOf (wireSkip (wireSkip c 4) 2)
    ∀ i, findFid s (c.low 4) = some i → newname ≠ [] →
      IsRel newname ∧ Fits s.root (sibling (s.fids i).path newname)
  | _ => True

theorem handle_keeps {req : Request} (h : SessionIn root s) (hsy : NamesStay s req) :
    Keeps root (p9ServerHandle s req rxcap) := by
  have reads := reads_anyLoad (Protocol.always (HostCall.Confined root))
  have rules := confineRules root
  refine wp_mono (handle_ends (J := fun s _ => SessionIn _ s) h reads trivial ?_) fun _ _ => Ends.same
  simp only [NamesStay, h.root_eq] at hsy
  unfold dispatch
  cases hco : P9T.ofCode _ with
  | none => exact .inl h
  | some t =>
    rw [hco] at hsy
    cases t with
    | version => exact tversion_ends h reads trivial ⟨h.root_eq, h.root_lt, fun _ => fidIn_nil rfl⟩
    | attach => exact tattach_ends h reads trivial rules
    | walk =>
      refine twalk_ends h reads trivial rules (walkRule h) ?_ fun i hi => ?_
      · intro s _ i _ _ cur hcur hs
        rw [hcur.2.1.snprintf_eq]
        exact hs.setPath hcur.1 hcur.2.1
      · rw [(h.fids i).fits.snprintf_eq]
        exact ⟨(h.fids i).isRel, (h.fids i).fits, hsy i hi⟩
    | «open» =>
      refine topen_ends h reads trivial rules stays_buildDirbuf fun i _ _ _ => ?_
      exact stays_open (h.hostPath (h.fids i).isRel (h.fids i).fits) fun _ => h.setIsdir.setFd
    | create =>
      refine tcreate_ends h reads trivial rules fun i _ hi hpa => ?_
      obtain ⟨hrel, hft⟩ := create_stays h (fun name => hsy i _ hi) hpa
      have hs := h.setPath (i := i) hrel hft
      exact ⟨hs, fun _ _ _ => stays_open (h.hostPath hrel hft) fun _ => hs.setFd⟩
    | read => exact tread_ends h reads trivial rules
    | write => exact twrite_ends h reads trivial rules fun _ _ => ⟨trivial, rfl⟩
    | clunk => exact tclunk_ends h reads trivial rules
    | remove => exact tremove_ends h reads trivial rules
    | stat => exact tstat_ends h reads trivial rules
    | wstat => exact twstat_ends h reads trivial rules fun i hi hne => rename_stays h hne (hsy i hi hne)

theorem serve_stays {op : Request × Nat} (h : SessionIn root s) (hsy : NamesStay s op.1) :
    Stays root (serve s op) (SessionIn root) :=
  wp_then (handle_keeps h hsy) fun _ _ hs' => hs'

theorem p9ServerCreate_sessionIn (root : CStr) :
    SessionIn (p9ServerCreate root).root (p9ServerCreate root) := by
  refine ⟨rfl, ?_, fun _ => fidIn_nil rfl⟩
  show (root.take (srvPathmax - 1)).length < srvPathmax
  rw [length_take]
  exact lt_of_le_of_lt (min_le_left _ _) (by decide)

end Handlers

/-! ## Sessions -/

/-- Every host call of the exchange names paths under the root only. -/
def CallsConfined (root : CStr) (tr : List (Sigma (Reading.Ans HostCall.Ans))) : Prop :=
  ∀ (h : HostCall) (r : h.Ans), ⟨.host h, r⟩ ∈ tr → h.Confined root

/-- A session whose messages stay under the root keeps every host call and every fid there. -/
theorem session_confined (root : CStr) (ops : List (Request × Nat))
    (tr : List (Sigma (Reading.Ans HostCall.Ans))) (s : P9Server)
    (hrun : Session serve (fun s op => NamesStay s op.1) (p9ServerCreate root) ops tr s) :
    CallsConfined (p9ServerCreate root).root tr ∧ ∀ i, IsRel (s.fids i).path := by
  have hkps := hrun.keeps (fun s op _ hs hsy => serve_stays hs hsy)
    (p9ServerCreate_sessionIn _) (Protocol.honest_anyLoad_always tr)
  exact ⟨fun _ _ hmem => Protocol.host_of_obeyed hkps.1 hmem, fun i => (hkps.2.fids i).isRel⟩

/-- `Twstat` of fid 0 to the name `../x`. -/
def renameUp : Request :=
  Request.ofBytes (lowBytes 4 60 ++ [126] ++ replicate 49 0 ++ [4, 0] ++ text "../x") (by decide)

/-- `Twalk` from fid 0 to fid 1 by the name `x`. -/
def walkX : Request :=
  Request.ofBytes (lowBytes 4 20 ++ [110] ++ replicate 6 0 ++ [1, 0, 0, 0, 1, 0, 1, 0] ++ text "x")
    (by decide)

/-- A root, and what a calm host makes of a message. -/
def demoRoot : P9Server := p9ServerCreate (text "r")

def calmServe (s : P9Server) (req : Request) : List (Sigma (Reading.Ans HostCall.Ans)) × P9Server :=
  (serve s (req, 64)).runIn (calmHost dirMode) ()

def afterAttach : P9Server := (calmServe demoRoot attachZero).2

def afterWalk : P9Server := (calmServe afterAttach walkX).2

theorem attachZero_stays : NamesStay demoRoot attachZero := by
  have hty : P9T.ofCode attachZero.type = some .attach := by decide +kernel
  unfold NamesStay
  rw [hty]
  trivial

theorem walkX_stays : NamesStay afterAttach walkX := by
  have hty : P9T.ofCode walkX.type = some .walk := by decide +kernel
  have hfid : findFid afterAttach (walkX.body.low 4) = some ⟨0, by decide⟩ := by decide +kernel
  have hn : (wireSkip (wireSkip walkX.body 4) 4).low 2 = 1 := by decide +kernel
  unfold NamesStay
  rw [hty]
  intro c i hi
  cases hi.symm.trans hfid
  change WalkFits _ ((wireSkip (wireSkip walkX.body 4) 4).low 2) _ _
  rw [hn]
  exact ⟨text "x", by decide +kernel, fun _ => .inr (by decide +kernel), fun _ _ => trivial⟩

theorem session_confined_walk :
    CallsConfined demoRoot.root ((calmServe demoRoot attachZero).1 ++ ((calmServe afterAttach walkX).1 ++ [])) ∧
      (∀ i, IsRel (afterWalk.fids i).path) ∧ (afterWalk.fids ⟨1, by decide⟩).path = text "x" := by
  have hwalk : Session serve (fun s op => NamesStay s op.1) afterAttach [(walkX, 64)] _ afterWalk :=
    .cons walkX_stays (runs_runIn _ _ ()) (.nil _)
  have hrun : Session serve (fun s op => NamesStay s op.1) demoRoot [(attachZero, 64), (walkX, 64)] _ _ :=
    .cons attachZero_stays (runs_runIn _ _ ()) hwalk
  obtain ⟨hcalls, hrel⟩ := session_confined _ _ _ _ hrun
  exact ⟨hcalls, hrel, by decide +kernel⟩

def isRenameTo (path : CStr) : Sigma (Reading.Ans HostCall.Ans) → Bool
  | ⟨.host (.rename _ new), _⟩ => new == path
  | _ => false

theorem exists_rename {tr : List (Sigma (Reading.Ans HostCall.Ans))} (h : tr.any (isRenameTo path) = true) :
    ∃ (old : CStr) (r : Except Nat Unit), ⟨.host (.rename old path), r⟩ ∈ tr := by
  obtain ⟨ev, hmem, hev⟩ := any_eq_true.mp h
  unfold isRenameTo at hev
  split at hev
  case h_1 old new r =>
    rw [beq_iff_eq.mp hev] at hmem
    exact ⟨old, r, hmem⟩
  case h_2 => cases hev

theorem not_underRoot_up {root rest : CStr} : ¬ UnderRoot root (root ++ slash :: dotdot ++ slash :: rest) := by
  rintro ⟨comps, hcmp, heq⟩
  rw [append_assoc, append_cancel_left_eq] at heq
  cases comps with
  | nil => cases heq
  | cons c comps =>
    have hc := hcmp c mem_cons_self
    rw [flatMap_cons, cons_append, cons_append, cons.injEq] at heq
    -- the first component ends at the first separator
    match c, hc, heq.2 with
    | [], hc, _ => exact hc.ne_nil rfl
    | [a], hc, h =>
      have ha : a = 46 := (cons.injEq .. ▸ h).1.symm
      exact hc.ne_dot (by rw [ha]; rfl)
    | [a, b], hc, h =>
      have hab : a = 46 ∧ b = 46 := by
        simp only [dotdot, cons_append, cons.injEq] at h
        exact ⟨h.1.symm, h.2.1.symm⟩
      exact hc.ne_dotdot (by rw [hab.1, hab.2]; rfl)
    | a :: b :: d :: more, hc, h =>
      have hd : d = slash := by
        simp only [dotdot, cons_append, nil_append, cons.injEq] at h
        exact h.2.2.1.symm
      exact hc.no_slash (by simp [hd])

def outside : CStr := text "r" ++ slash :: dotdot ++ slash :: text "x"

/-- A rename to `../x` on the root's fid names a file outside the root. -/
theorem rename_escapes :
    ¬ ∀ (root : CStr) (ops : List (Request × Nat)) (tr : List (Sigma (Reading.Ans HostCall.Ans)))
      (s : P9Server), Session serve (fun _ _ => True) (p9ServerCreate root) ops tr s →
      CallsConfined (p9ServerCreate root).root tr ∧ ∀ i, IsRel (s.fids i).path := by
  intro hall
  have hatt := runs_runIn (calmHost dirMode) (serve demoRoot (attachZero, 64)) ()
  have hrnm := runs_runIn (calmHost dirMode) (serve afterAttach (renameUp, 64)) ()
  have hnil : Session serve (fun _ _ => True) _ [] [] _ := .nil (calmServe afterAttach renameUp).2
  have hcf := (hall _ _ _ _ ((hnil.cons trivial hrnm).cons trivial hatt)).1
  have hany : (calmServe afterAttach renameUp).1.any (isRenameTo outside) := by decide +kernel
  obtain ⟨old, r, hmem⟩ := exists_rename hany
  have hund := hcf (.rename old _) r
    (mem_append_right _ (mem_append_left _ hmem)) outside (by simp [HostCall.paths])
  exact not_underRoot_up hund

end Skjegg.Fs
