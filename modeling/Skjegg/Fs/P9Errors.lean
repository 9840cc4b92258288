import Skjegg.Fs.P9Rules

/-!
# What a failed message leaves of the fid table

Most handlers change the fid table only once nothing can fail any more.  `Topen` and `Tcreate` do not:
they store the kind, the path and the descriptor in the fid before the host call that may fail.
-/

namespace Skjegg.Fs

open Skjegg.Lib Prog

/-- Whatever the host answers, a message other than `Tremove` and `Tversion` that is answered with an
error leaves the fid table as it was. -/
def ErrorKeepsFids (s : P9Server) (req : Request) (rxcap : Nat) : Prop :=
  P9T.ofCode req.type ∉ [some .remove, some .version] →
    (p9ServerHandle s req rxcap).Ensures fun r => IsRerror r.2 → r.1.fids = s.fids

/-- The reply has no room for an error, whatever its text. -/
def NoErrorFits (rxcap tag : Nat) : Prop := ∀ msg, ¬IsRerror (rerror rxcap tag msg)

/-- A complete open finds its fid as an open that fails leaves it. -/
def OpenClean (s : P9Server) (c : WireIn) : Prop :=
  (wireSkip (wireSkip c 4) 1).ok → ∀ i, findFid s (c.low 4) = some i →
    (s.fids i).isdir = false ∧ (s.fids i).fd = -1 ∧ (s.fids i).dirbuf ≠ none

/-- A complete create whose name is taken makes a directory, and finds its fid as if it had. -/
def CreateClean (s : P9Server) (c : WireIn) : Prop :=
  (wireSkip (wireSkip (wireSkip c 4).pastStr 4) 1).ok → ∀ i, findFid s (c.low 4) = some i →
    ∀ path, pathStep (s.fids i).path (((wireSkip c 4).str (some 256)).getD []) = some path →
      (wireSkip c 4).pastStr.low 4 &&& p9Dmdir ≠ 0 ∧ (s.fids i).path = path ∧ (s.fids i).isdir = true

def FailsClean (s : P9Server) (req : Request) : Prop :=
  match P9T.ofCode req.type with
  | some .open => OpenClean s req.body
  | some .create => CreateClean s req.body
  | _ => True

abbrev anyCall : HostProtocol Unit := (Protocol.always fun _ => True).anyLoad

/-- The handler returns no error with another fid table. -/
abbrev Quiet (s : P9Server) (p : Handler) : Prop :=
  p.wp anyCall () fun r _ => IsRerror r.2 → r.1.fids = s.fids

theorem ensures_iff_wp {α : Type} {p : P9Prog α} {Q : α → Prop} :
    p.Ensures Q ↔ p.wp anyCall () fun a _ => Q a := by
  constructor
  · intro h
    induction p with
    | ret a => exact h [] a (.ret a)
    | ask e k ih =>
      refine ⟨by cases e <;> trivial, fun r _ => ih r fun tr a hrun => ?_⟩
      exact h _ a (.ask e k r hrun)
  · intro h tr a hrun
    exact (wp_sound h hrun (Protocol.honest_anyLoad_always tr)).2

section

variable {s s' : P9Server} {c : WireIn} {rxcap tag : Nat} {i : Fin srvMaxfid}

theorem quiet_host {q : HostCall} {f : q.Ans → Handler} :
    Quiet s (host q >>= f) ↔ ∀ r, Quiet s (f r) :=
  (wp_bind.trans wp_host_always).trans (and_iff_right trivial)

theorem quiet_ifComplete {body : Handler} :
    Quiet s (ifComplete s c rxcap tag body) ↔ (c.ok → Quiet s body) := by
  unfold ifComplete
  split
  next h => exact (imp_iff_right h).symm
  next h => exact iff_of_true (fun _ => rfl) fun hok => absurd hok h

theorem quiet_withFid {fid : Nat} {body : Fin srvMaxfid → Handler} :
    Quiet s (withFid s fid rxcap tag body) ↔ ∀ i, findFid s fid = some i → Quiet s (body i) := by
  unfold withFid
  cases findFid s fid with
  | none => exact iff_of_true (fun _ => rfl) fun _ h => by cases h
  | some i => simp

theorem quiet_errnoFail {err : Int} :
    Quiet s (errnoFail s' rxcap tag err) ↔ NoErrorFits rxcap tag ∨ s'.fids = s.fids := by
  unfold errnoFail errnoReply
  rw [bind_assoc, quiet_host]
  constructor
  · intro h
    by_cases hsm : s'.fids = s.fids
    · exact .inr hsm
    · exact .inl fun msg herr => hsm (h msg herr)
  · rintro (hno | hsm) msg herr
    · exact absurd herr (hno msg)
    · exact hsm

theorem quiet_openReply {type : Nat} {st : Stat} (h : UInt8.ofNat type ≠ 107) :
    Quiet s (pure (s', openReply rxcap tag type st)) := fun herr =>
  absurd herr ((typed_hdr rxcap type tag).put.put.put.put.put.not_isRerror h)

theorem quiet_getLow {n : Nat} {f : Nat × WireIn → Handler} :
    Quiet s (wireGetLow n c >>= f) ↔ Quiet s (f (c.low n, wireSkip c n)) :=
  wp_bind.trans wp_wireGetLow

theorem quiet_getStr {cap : Option Nat} {f : Option CStr × WireIn → Handler} :
    Quiet s (wireGetStr cap c >>= f) ↔ Quiet s (f (c.str cap, c.pastStr)) :=
  wp_bind.trans wp_wireGetStr

theorem buildDirbuf_fails {f : Int × P9Server → Handler} (hno : (s'.fids i).dirbuf = none)
    (h : Quiet s (buildDirbuf s' i >>= f)) : Quiet s (f (-1, s')) := by
  simp only [buildDirbuf, hno, Option.isSome_none, Bool.false_eq_true, if_false, bind_assoc] at h
  exact quiet_host.mp h (.error 1)

theorem setFid_same {f : SrvFid} (h : f = s.fids i) : s.setFid i f = s := by
  rw [h, P9Server.setFid, Function.update_eq_self]

theorem topen_quiet_iff : Quiet s (topen s c rxcap tag) ↔ NoErrorFits rxcap tag ∨ OpenClean s c := by
  unfold topen wireGetU32 wireGetU8
  simp only [quiet_getLow, quiet_ifComplete, quiet_withFid]
  rw [or_iff_not_imp_left]
  constructor
  · intro h hcap hok i hi
    have hsm : ∀ {s' err}, Quiet s (errnoFail s' _ tag err) → s'.fids i = s.fids i :=
      fun h => congrFun ((quiet_errnoFail.mp h).resolve_left hcap) i
    have hstat := quiet_host.mp (h hok i hi)
    -- a file that cannot be opened
    have hfi := hsm (quiet_host.mp (hstat (Except.ok ⟨fileMode, 0, 0, 0, 0⟩)) (Except.error 0))
    rw [P9Server.setFd, setFid_self, P9Server.setIsdir, setFid_self] at hfi
    have hisdir : false = (s.fids i).isdir := congrArg SrvFid.isdir hfi
    refine ⟨hisdir.symm, (congrArg _ hfi).symm, fun hno => ?_⟩
    -- a directory that cannot be opened
    have hdir := hsm (buildDirbuf_fails (by rw [P9Server.setIsdir, setFid_self]; exact hno)
      (hstat (Except.ok ⟨dirMode, 0, 0, 0, 0⟩)))
    rw [P9Server.setIsdir, setFid_self] at hdir
    exact Bool.noConfusion (hisdir.trans (congrArg _ hdir).symm)
  intro hcln hok i hi
  rw [quiet_host]
  rintro (- | st)
  · exact quiet_errnoFail.mpr (.inr rfl)
  simp only
  split
  next hdir =>
    by_cases hbuf : (s.fids i).dirbuf = none
    · have hcap : NoErrorFits rxcap tag := by
        by_contra hcap
        exact (hcln hcap hok i hi).2.2 hbuf
      apply wp_then (ensures_iff_wp.mp (ensures_true _))
      rintro ⟨-, -⟩ _ -
      split
      · exact quiet_errnoFail.mpr (.inl hcap)
      · exact quiet_openReply (by decide)
    · obtain ⟨buf, hbuf⟩ := Option.ne_none_iff_exists'.mp hbuf
      simp only [buildDirbuf, P9Server.setIsdir, setFid_self, hbuf, Option.isSome_some, if_true]
      exact quiet_openReply (by decide)
  next hfi =>
    rw [quiet_host]
    rintro (err | n)
    · refine quiet_errnoFail.mpr (or_iff_not_imp_left.mpr fun hcap => ?_)
      obtain ⟨hisdir, hfd, -⟩ := hcln hcap hok i hi
      have hsm : s.setIsdir i st.isDir = s := setFid_same (by rw [Bool.eq_false_iff.mpr hfi, ← hisdir])
      rw [hsm, show s.setFd i _ = s from setFid_same (by rw [fdOf, ← hfd])]
    · exact quiet_openReply (by decide)

theorem quiet_createdReply {hp : CStr} :
    Quiet s (createdReply s' hp rxcap tag) ↔ NoErrorFits rxcap tag ∨ s'.fids = s.fids := by
  unfold createdReply
  rw [quiet_host]
  constructor
  · exact fun h => quiet_errnoFail.mp (h (Except.error 0))
  · rintro h (- | -)
    · exact quiet_errnoFail.mpr h
    · exact quiet_openReply (by decide)

theorem tcreate_quiet_iff : Quiet s (tcreate s c rxcap tag) ↔ NoErrorFits rxcap tag ∨ CreateClean s c := by
  unfold tcreate wireGetU32 wireGetU8
  simp only [quiet_getLow, quiet_getStr, quiet_ifComplete, quiet_withFid]
  rw [or_iff_not_imp_left]
  constructor
  · intro h hcap hok i hi path hpa
    have hsm : ∀ {s' hp}, Quiet s (createdReply s' hp _ tag) → s'.fids i = s.fids i :=
      fun h => congrFun ((quiet_createdReply.mp h).resolve_left hcap) i
    have hst := h hok i hi
    simp only [hpa] at hst
    split at hst
    next hdir =>
      have hma := hsm (quiet_host.mp hst (Except.ok ()))
      rw [P9Server.setIsdir, setFid_self, P9Server.setPath, setFid_self] at hma
      exact ⟨hdir, (congrArg _ hma).symm, (congrArg _ hma).symm⟩
    next hfi =>
      -- the host may open any descriptor
      have hfd : ∀ n : Nat, (n : Int) = (s.fids i).fd := by
        intro n
        have hop := hsm (quiet_host.mp hst (Except.ok n))
        rw [P9Server.setIsdir, setFid_self, P9Server.setFd, setFid_self] at hop
        exact congrArg SrvFid.fd hop
      exact absurd ((hfd 0).trans (hfd 1).symm) (by decide)
  intro hcln hok i hi
  split
  next => exact fun _ => rfl
  next path hpa =>
    have hkp : NoErrorFits rxcap tag ∨ (wireSkip c 4).pastStr.low 4 &&& p9Dmdir ≠ 0 ∧ s.setPath i path = s ∧
        s.setIsdir i true = s := by
      refine or_iff_not_imp_left.mpr fun hcap => ?_
      obtain ⟨hdir, hsm, hisdir⟩ := hcln hcap hok i hi _ hpa
      exact ⟨hdir, setFid_same (by rw [← hsm]), setFid_same (by rw [← hisdir])⟩
    split
    next hdir =>
      rw [quiet_host]
      rintro (- | _)
      · exact quiet_errnoFail.mpr (hkp.imp_right fun h => by rw [h.2.1])
      · exact quiet_createdReply.mpr (hkp.imp_right fun h => by rw [h.2.1, h.2.2])
    next hfi =>
      have hcap := hkp.resolve_right fun h => hfi h.1
      rw [quiet_host]
      rintro (- | n)
      · exact quiet_errnoFail.mpr (.inl hcap)
      · exact quiet_createdReply.mpr (.inl hcap)

theorem quietRules (s : P9Server) : Rules anyCall (fun s' _ => s'.fids = s.fids) fun _ _ => True where
  ask _ _ := ⟨trivial, fun _ => rfl⟩
  bind _ h := ensures_iff_wp.mp fun _ r _ => by
    cases r with
    | none => exact h
    | some _ => trivial
  clunk _ _ := ensures_iff_wp.mp (ensures_true _)
  setIsdir _ := trivial

theorem ensures_handle_iff {req : Request} :
    (p9ServerHandle s req rxcap).Ensures (fun r => IsRerror r.2 → r.1.fids = s.fids) ↔
      (req.body.ok → Quiet s (dispatch s req.body rxcap req.type req.tag)) := by
  rw [ensures_iff_wp, p9ServerHandle, (reads_anyLoad _).header trivial]
  exact quiet_ifComplete

end

/-- An error leaves the fid table as it was exactly when no error fits into the reply or the message
fails clean. -/
theorem errorKeepsFids_iff (s : P9Server) (req : Request) (rxcap : Nat) :
    ErrorKeepsFids s req rxcap ↔ NoErrorFits rxcap req.tag ∨ FailsClean s req := by
  have reads := reads_anyLoad (.always fun _ => True)
  have rules := quietRules s
  have other : ∀ {X : Prop} {p : Handler},
      p.wp anyCall () (Ends (fun s' _ => s'.fids = s.fids) fun _ _ => True) →
      ((X → req.body.ok → Quiet s p) ↔ NoErrorFits rxcap req.tag ∨ True) := fun h =>
    iff_of_true (fun _ _ => wp_mono h fun _ _ hr herr => hr.elim id fun hdn => absurd herr hdn.2)
      (.inr trivial)
  unfold ErrorKeepsFids FailsClean
  rw [ensures_handle_iff, dispatch]
  cases hco : P9T.ofCode _ with
  | none => exact other (.inl rfl)
  | some t =>
    cases t with
    | version | remove => exact iff_of_true (fun h => absurd h (by decide)) (.inr trivial)
    | «open» =>
      rw [imp_iff_right (by decide), topen_quiet_iff]
      refine ⟨fun h => ?_, fun h _ => h⟩
      -- a message that is complete has a complete header
      exact or_iff_not_imp_left.mpr fun hcap hok =>
        (h (ok_of_ok_skip (ok_of_ok_skip hok).1).1).resolve_left hcap hok
    | create =>
      rw [imp_iff_right (by decide), tcreate_quiet_iff]
      refine ⟨fun h => or_iff_not_imp_left.mpr fun hcap hok => (h ?_).resolve_left hcap hok, fun h _ => h⟩
      have hnm : (wireSkip req.body 4).pastStr.ok := (ok_of_ok_skip (ok_of_ok_skip hok).1).1
      exact (ok_of_ok_skip (ok_of_ok_skip (ok_of_ok_skip hnm).1).1).1
    | attach => exact other (tattach_ends rfl reads trivial rules)
    | walk =>
      refine other (twalk_ends rfl reads trivial rules (W := fun _ _ _ => True) ?_ (fun _ _ => trivial)
        fun _ _ => trivial)
      exact fun _ _ _ _ _ _ _ _ => ⟨⟨trivial, fun _ => rfl⟩, trivial⟩
    | read => exact other (tread_ends rfl reads trivial rules)
    | write => exact other (twrite_ends rfl reads trivial rules fun _ _ => ⟨trivial, rfl⟩)
    | clunk => exact other (tclunk_ends rfl reads trivial rules)
    | stat => exact other (tstat_ends rfl reads trivial rules)
    | wstat => exact other (twstat_ends rfl reads trivial rules fun _ _ _ => ⟨⟨trivial, fun _ => rfl⟩, trivial⟩)

def boundFids : P9Server := ⟨[], fun _ => boundFid⟩

/-- `Tcreate` of the file `x` in the directory of fid 0. -/
def createMessage : Request :=
  Request.ofBytes (lowBytes 4 19 ++ [114] ++ List.replicate 6 0 ++ [1, 0, 120] ++ List.replicate 5 0)
    (by decide)

/-- A create that the host refuses leaves its fid with the path of the file that is not there. -/
theorem createMessage_moves_fid :
    ¬∀ (s : P9Server) (req : Request) (rxcap : Nat), ErrorKeepsFids s req rxcap := by
  intro hall
  have hty : P9T.ofCode createMessage.type = some .create := by decide +kernel
  have h := hall boundFids _ 64 (by rw [hty]; decide)
  rw [ensures_handle_iff, dispatch, hty] at h
  have hcln := (tcreate_quiet_iff.mp (h (by decide +kernel))).resolve_left fun hno => hno [] (by decide +kernel)
  have hdir := (hcln (by decide +kernel) ⟨0, by decide⟩ (by decide +kernel) (text "x") (by decide +kernel)).1
  exact absurd hdir (by decide +kernel)

end Skjegg.Fs
