import Skjegg.Fs.P9Server

/-!
# Following the handlers

Each handler is followed once, through every answer of the host and for any protocol.  What a result
about the server brings is how it reads the fields of a request and how it stands to the few things a
handler does with the session.
-/

namespace Skjegg.Fs

open Skjegg.Lib Prog

abbrev HostProtocol (G : Type) := Protocol (Reading HostCall) (Reading.Ans HostCall.Ans) G

/-- The reply is an `Rerror`. -/
def IsRerror (r : List UInt8) : Prop := r[4]? = some 107

instance (r : List UInt8) : Decidable (IsRerror r) := inferInstanceAs (Decidable (_ = _))

/-- The calls about the session's own files, and those that name no file. -/
def P9Server.Asking (s : P9Server) : HostCall → Prop
  | .stat path => path = s.root ∨ ∃ i, path = hostPath s.root (s.fids i).path srvPathmax
  | .mkdir path _ | .rmdir path | .unlink path => ∃ i, path = hostPath s.root (s.fids i).path srvPathmax
  | .pread _ _ _ | .pwrite _ _ _ | .strerror _ | .indeterminate => True
  | _ => False

variable {G α : Type} {P : HostProtocol G} {g : G} {Q : α → G → Prop} {o : WireOut} {type : UInt8}

/-- The host may be asked, and the ghost state stays. -/
def Asks (P : HostProtocol G) (g : G) (q : HostCall) : Prop :=
  P.may g (.host q) ∧ ∀ r, P.next g (.host q) r = g

theorem Asks.bind {q : HostCall} {f : q.Ans → P9Prog α} (h : Asks P g q)
    (hf : ∀ r, (f r).wp P g Q) : (host q >>= f).wp P g Q := by
  refine ⟨h.1, fun r _ => ?_⟩
  rw [h.2 r]
  exact hf r

/-! ## Fields -/

/-- A cursor in `Cur`, at most `k` bytes into the message, is read as the message has it. -/
structure Reads (P : HostProtocol G) (Cur : WireIn → Nat → Prop) : Prop where
  low : ∀ {c k n g} {Q : Nat × WireIn → G → Prop}, Cur c k → k + n < 2 ^ 32 →
    ((wireGetLow n c).wp P g Q ↔ Q (c.low n, wireSkip c n) g)
  str : ∀ {c k cap g} {Q : Option CStr × WireIn → G → Prop}, Cur c k → k + 65537 < 2 ^ 32 →
    ((wireGetStr cap c).wp P g Q ↔ Q (c.str cap, c.pastStr) g)
  skip : ∀ {c k n}, Cur c k → k + n < 2 ^ 32 → Cur (wireSkip c n) (k + n)
  pastStr : ∀ {c k}, Cur c k → k + 65537 < 2 ^ 32 → Cur c.pastStr (k + 65537)
  record : ∀ {c k}, Cur c k → Cur (wireInInit c.mem (c.base + c.p) (c.len - c.p)) 0

theorem reads_anyLoad (P : Protocol HostCall HostCall.Ans G) : Reads P.anyLoad fun _ _ => True :=
  ⟨fun _ _ => wp_wireGetLow, fun _ _ => wp_wireGetStr, fun _ _ => trivial, fun _ _ => trivial,
    fun _ => trivial⟩

section Fields

variable {Cur : WireIn → Nat → Prop} (reads : Reads P Cur) {c : WireIn} {k n : Nat}
  {f : Nat × WireIn → P9Prog α}

include reads

theorem Reads.getLow (h : Cur c k) (hk : k + n < 2 ^ 32) :
    (wireGetLow n c >>= f).wp P g Q ↔ (f (c.low n, wireSkip c n)).wp P g Q :=
  wp_bind.trans (reads.low h hk)

theorem Reads.getU64 (h : Cur c k) (hk : k + 8 < 2 ^ 32) : (wireGetU64 c >>= f).wp P g Q ↔
      (f (c.low 4 + (wireSkip c 4).low 4 * 2 ^ 32, wireSkip (wireSkip c 4) 4)).wp P g Q := by
  unfold wireGetU64 wireGetU32
  simp only [bind_assoc]
  rw [reads.getLow h (by omega), reads.getLow (reads.skip h (by omega)) (by omega)]
  rfl

theorem Reads.getStr {cap : Option Nat} {f : Option CStr × WireIn → P9Prog α} (h : Cur c k)
    (hk : k + 65537 < 2 ^ 32) :
    (wireGetStr cap c >>= f).wp P g Q ↔ (f (c.str cap, c.pastStr)).wp P g Q :=
  wp_bind.trans (reads.str h hk)

theorem Reads.wstatName {f : CStr → P9Prog α} (h : Cur c k) :
    (wstatName c >>= f).wp P g Q ↔ (f (newnameOf c)).wp P g Q := by
  have h0 := reads.record h
  have h1 := reads.skip (n := 2) h0 (by decide)
  have h2 := reads.skip (n := 2) h1 (by decide)
  have h3 := reads.skip (n := 13) (reads.skip (n := 4) h2 (by decide)) (by decide)
  have h4 := reads.skip (n := 4) h3 (by decide)
  have h5 := reads.skip (n := 4) h4 (by decide)
  have h6 := reads.skip (n := 4) h5 (by decide)
  have h7 := reads.skip (n := 4) (reads.skip (n := 4) h6 (by decide)) (by decide)
  unfold Skjegg.Fs.wstatName wireGetU32 wireGetU16
  simp only [bind_assoc]
  rw [reads.getLow h0 (by decide), reads.getLow h1 (by decide), reads.getLow h2 (by decide),
    reads.getLow h3 (by decide), reads.getLow h4 (by decide), reads.getLow h5 (by decide),
    reads.getU64 h6 (by decide), reads.getStr h7 (by decide)]
  rfl

theorem Reads.header {req : Request} {f : Nat × Nat × WireIn → P9Prog α}
    (h : Cur (wireInInit req.mem req.base req.len) 0) :
    (header req >>= f).wp P g Q ↔ (f (req.type, req.tag, req.body)).wp P g Q := by
  have h1 := reads.skip (n := 4) h (by decide)
  unfold Skjegg.Fs.header wireGetU32 wireGetU8 wireGetU16
  simp only [bind_assoc]
  rw [reads.getLow h (by decide), reads.getLow h1 (by decide),
    reads.getLow (reads.skip h1 (by decide)) (by decide)]
  rfl

end Fields

/-! ## Replies -/

theorem put_ok {bytes : List UInt8} (h : (wirePutBytes o bytes).ok) :
    o.ok ∧ ¬o.Full bytes.length ∧ (wirePutBytes o bytes).bytes = o.bytes ++ bytes := by
  unfold wirePutBytes at h ⊢
  split at h
  · cases h
  next hft =>
    rw [if_neg hft]
    exact ⟨h, hft, rfl⟩

/-- A message that did not overflow has this type. -/
def Typed (o : WireOut) (type : UInt8) : Prop := o.ok → o.bytes[4]? = some type

theorem Typed.put (h : Typed o type) {bytes : List UInt8} :
    Typed (wirePutBytes o bytes) type := by
  intro hok
  obtain ⟨hok, -, hbs⟩ := put_ok hok
  have hlt : 4 < o.bytes.length := (getElem?_eq_some_iff.mp (h hok)).1
  rw [hbs, List.getElem?_append_left hlt, h hok]

theorem Typed.qids (h : Typed o type) {qids : List P9Qid} :
    Typed (qids.foldl p9oQid o) type := by
  induction qids generalizing o with
  | nil => exact h
  | cons q qids ih => exact ih h.put.put.put.put

theorem typed_hdr (rxcap type tag : Nat) :
    Typed (p9oHdr (wireOutInit rxcap) type tag) (UInt8.ofNat type) := by
  have h : Typed (wirePutU8 (wirePutU32 (wireOutInit rxcap) 0) type) (UInt8.ofNat type) := by
    intro hok
    obtain ⟨hok, -, hbs⟩ := put_ok hok
    show (wirePutBytes _ _).bytes[4]? = _
    rw [hbs]
    show ((wirePutBytes _ _).bytes ++ _)[4]? = _
    rw [(put_ok hok).2.2]
    rfl
  exact h.put

theorem p9oFinish_type (h : Typed o type) (hok : o.ok) :
    (p9oFinish o)[4]? = some type := by
  rw [p9oFinish, if_pos hok, List.getElem?_append_right (by simp), length_lowBytes, List.getElem?_drop]
  exact h hok

theorem Typed.not_isRerror (h : Typed o type) (hne : type ≠ 107) :
    ¬IsRerror (p9oFinish o) := by
  intro herr
  by_cases hok : o.ok
  · exact hne (Option.some.inj ((p9oFinish_type h hok).symm.trans herr))
  · rw [p9oFinish, if_neg hok] at herr
    cases herr

/-! ## The handlers -/

/-- How a handler ends: a session in `J` with any reply, or one in `K` with a reply that is no error. -/
def Ends (J K : P9Server → G → Prop) (r : P9Server × List UInt8) (g : G) : Prop :=
  J r.1 g ∨ K r.1 g ∧ ¬IsRerror r.2

theorem Ends.same {J : P9Server → G → Prop} {r : P9Server × List UInt8} (h : Ends J J r g) : J r.1 g :=
  h.elim id And.left

/-- What a handler does with the session: it asks about its files, binds a fid from `J` into `K`, and
clunks one. -/
structure Rules (P : HostProtocol G) (J K : P9Server → G → Prop) : Prop where
  ask : ∀ {s g q}, J s g → s.Asking q → Asks P g q
  bind : ∀ {s g} fid, J s g → (bindFid s fid).wp P g fun r g' => r.elim (J s g') fun x => K x.2 g'
  clunk : ∀ {s g i}, J s g → (s.fids i).used → (clunkFid s i).wp P g K
  setIsdir : ∀ {s g i d}, K s g → K (s.setIsdir i d) g

theorem setFid_self (s : P9Server) (i : Fin srvMaxfid) (f : SrvFid) : (s.setFid i f).fids i = f :=
  Function.update_self ..

theorem findFid_used {s : P9Server} {fid : Nat} {i : Fin srvMaxfid} (h : findFid s fid = some i) :
    (s.fids i).used := by
  unfold findFid at h
  split at h
  case h_1 j hj =>
    cases h
    have hfnd := List.find?_some hj
    rw [Bool.and_eq_true] at hfnd
    exact hfnd.1
  case h_2 =>
    split at h
    case isTrue hlt =>
      split at h
      case isTrue hus =>
        cases h
        exact hus
      case isFalse => cases h
    case isFalse => cases h

theorem Rules.host {J K : P9Server → G → Prop} (rules : Rules P J K) {s : P9Server} (h : J s g)
    {q : HostCall} {f : q.Ans → P9Prog α} (hf : ∀ r, (f r).wp P g Q) (hq : s.Asking q := by trivial) :
    (Lib.host q >>= f).wp P g Q :=
  (rules.ask h hq).bind hf

/-- What a walk needs of the names that are left: the host may be asked about each path it comes to. -/
def WalkRule (P : HostProtocol G) (g : G) (root : CStr) (W : Nat → WireIn → CStr → Prop) : Prop :=
  ∀ n c cur name cur', W (n + 1) c cur → (∀ x, c.str (some 256) = some x → x = name) →
    pathStep cur name = some cur' →
    Asks P g (.stat (hostPath root cur' srvPathmax)) ∧ W n c.pastStr cur'

section Handlers

variable {Cur : WireIn → Nat → Prop} {J K : P9Server → G → Prop} {s : P9Server} {c : WireIn}
  {rxcap tag : Nat} {i : Fin srvMaxfid} (h : J s g)

include h

theorem ifComplete_ends {body : Handler} (hbo : c.ok → body.wp P g (Ends J K)) :
    (ifComplete s c rxcap tag body).wp P g (Ends J K) := by
  unfold ifComplete
  split
  · exact hbo ‹_›
  · exact .inl h

theorem withFid_ends {fid : Nat} {body : Fin srvMaxfid → Handler}
    (hbo : ∀ i, findFid s fid = some i → (body i).wp P g (Ends J K)) :
    (withFid s fid rxcap tag body).wp P g (Ends J K) := by
  unfold withFid
  split
  · exact .inl h
  · exact hbo _ ‹_›

theorem errnoFail_ends (rules : Rules P J K) {err : Int} :
    (errnoFail s rxcap tag err).wp P g (Ends J K) :=
  rules.host h fun _ => .inl h

theorem wp_walkLoop (rules : Rules P J K) (reads : Reads P Cur) {W : Nat → WireIn → CStr → Prop}
    (hW : WalkRule P g s.root W) {n k : Nat} {w : Walk} (hc : Cur w.c k)
    (hk : k + n * 65537 < 2 ^ 32) (hw : W n w.c w.cur) :
    (walkLoop s.root n w).wp P g fun w' g' => g' = g ∧ ∃ n c, W n c w'.cur := by
  induction n generalizing w k with
  | zero => exact ⟨rfl, _, _, hw⟩
  | succ n ih =>
    have hbuffer : ∀ read, (nameBuffer read).wp P g fun name g' =>
        g' = g ∧ ∀ x, read = some x → x = name := by
      rintro (_ | -)
      · have hask := rules.ask (q := .indeterminate) h trivial
        exact ⟨hask.1, fun r _ => ⟨hask.2 r, fun _ hx => by cases hx⟩⟩
      · exact ⟨rfl, fun _ hx => (Option.some.inj hx).symm⟩
    unfold walkLoop
    rw [reads.getStr hc (by omega)]
    apply wp_then (hbuffer _)
    rintro name g' ⟨rfl, hnm⟩
    cases hst : pathStep _ _ with
    | none => exact ⟨rfl, _, _, hw⟩
    | some cur =>
      obtain ⟨hask, hnx⟩ := hW n w.c _ _ cur hw hnm hst
      apply hask.bind
      rintro (- | -)
      · exact ⟨rfl, _, _, hnx⟩
      · exact ih (reads.pastStr hc (by omega)) (by omega) hnx

variable (reads : Reads P Cur)

include reads

theorem handle_ends {req : Request} (hc : Cur (wireInInit req.mem req.base req.len) 0)
    (hbo : (dispatch s req.body rxcap req.type req.tag).wp P g (Ends J K)) :
    (p9ServerHandle s req rxcap).wp P g (Ends J K) := by
  unfold p9ServerHandle
  rw [reads.header hc]
  exact ifComplete_ends h fun _ => hbo

variable (hc : Cur c 7)

include hc

theorem tversion_ends (hz : J { s with fids := fun _ => zeroFid } g) :
    (tversion s c rxcap tag).wp P g (Ends J K) := by
  unfold tversion wireGetU32
  rw [reads.getLow hc (by decide), reads.getStr (reads.skip hc (by decide)) (by decide)]
  exact ifComplete_ends h fun _ => .inl hz

section

variable (rules : Rules P J K)

include rules

theorem tattach_ends : (tattach s c rxcap tag).wp P g (Ends J K) := by
  have h1 := reads.skip (n := 4) hc (by decide)
  have h2 := reads.skip (n := 4) h1 (by decide)
  unfold tattach wireGetU32
  rw [reads.getLow hc (by decide), reads.getLow h1 (by decide), reads.getStr h2 (by decide),
    reads.getStr (reads.pastStr h2 (by decide)) (by decide)]
  refine ifComplete_ends h fun _ => rules.host h ?_ (.inl rfl)
  rintro (- | -)
  · exact errnoFail_ends h rules
  apply wp_then (rules.bind _ h)
  rintro (_ | ⟨j, s'⟩) g' hbd
  · exact .inl hbd
  · exact .inr ⟨rules.setIsdir hbd, (typed_hdr _ 105 tag).put.put.put.put.not_isRerror (by decide)⟩

theorem twalk_ends {W : Nat → WireIn → CStr → Prop} (hW : WalkRule P g s.root W)
    (hpa : ∀ {s g i n c cur}, W n c cur → K s g → K (s.setPath i (snprintf srvPathmax cur)) g)
    (hwalk : ∀ i, findFid s (c.low 4) = some i →
      W ((wireSkip (wireSkip c 4) 4).low 2) (wireSkip (wireSkip (wireSkip c 4) 4) 2)
        (snprintf srvPathmax (s.fids i).path)) : (twalk s c rxcap tag).wp P g (Ends J K) := by
  have h1 := reads.skip (n := 4) hc (by decide)
  have h2 := reads.skip (n := 4) h1 (by decide)
  have h3 := reads.skip (n := 2) h2 (by decide)
  unfold twalk wireGetU32 wireGetU16
  rw [reads.getLow hc (by decide), reads.getLow h1 (by decide), reads.getLow h2 (by decide)]
  apply withFid_ends h
  intro i hi
  split
  · exact .inl h
  next hnms =>
    have hmax : p9Maxwelem = 16 := rfl
    have hlp := wp_walkLoop h rules reads hW (w := ⟨_, _, [], (s.fids i).isdir⟩) h3 (by omega) (hwalk i hi)
    apply wp_then hlp
    rintro w g' ⟨rfl, _, _, hcur⟩
    refine ifComplete_ends h fun _ => ?_
    unfold walkBind
    split
    · exact .inl h
    split
    · apply wp_then (rules.bind _ h)
      rintro (_ | ⟨j, s'⟩) g' hbd
      · exact .inl hbd
      exact .inr ⟨rules.setIsdir (hpa hcur hbd), (typed_hdr _ 111 tag).put.qids.not_isRerror (by decide)⟩
    · exact .inl h

theorem tread_ends : (tread s c rxcap tag).wp P g (Ends J K) := by
  have h1 := reads.skip (n := 4) hc (by decide)
  have h2 := reads.skip (n := 4) (reads.skip (n := 4) h1 (by decide)) (by decide)
  unfold tread wireGetU32
  rw [reads.getLow hc (by decide), reads.getU64 h1 (by decide), reads.getLow h2 (by decide)]
  refine ifComplete_ends h fun _ => withFid_ends h fun i _ => ?_
  simp only
  split
  · exact .inl h
  apply rules.host h
  rintro (- | -)
  · exact errnoFail_ends h rules
  · exact .inl h

theorem twrite_ends (hlo : ∀ off cnt, P.may g (.load off cnt) ∧ P.next g (.load off cnt) () = g) :
    (twrite s c rxcap tag).wp P g (Ends J K) := by
  have h1 := reads.skip (n := 4) hc (by decide)
  have h2 := reads.skip (n := 4) (reads.skip (n := 4) h1 (by decide)) (by decide)
  unfold twrite wireGetU32
  rw [reads.getLow hc (by decide), reads.getU64 h1 (by decide), reads.getLow h2 (by decide)]
  refine ifComplete_ends h fun _ => withFid_ends h fun i _ => ?_
  simp only
  split
  · exact .inl h
  split
  · exact .inl h
  refine wp_bind.mpr ⟨(hlo _ _).1, fun _ _ => ?_⟩
  rw [(hlo _ _).2]
  apply rules.host h
  rintro (- | -)
  · exact errnoFail_ends h rules
  · exact .inl h

theorem tclunk_ends : (tclunk s c rxcap tag).wp P g (Ends J K) := by
  unfold tclunk wireGetU32
  rw [reads.getLow hc (by decide)]
  refine ifComplete_ends h fun _ => ?_
  split
  next => exact .inl h
  next i hi =>
    apply wp_then (rules.clunk h (findFid_used hi))
    exact fun s' g' hs' => .inr ⟨hs', (typed_hdr _ 121 tag).not_isRerror (by decide)⟩

theorem tstat_ends : (tstat s c rxcap tag).wp P g (Ends J K) := by
  unfold tstat wireGetU32
  rw [reads.getLow hc (by decide)]
  refine ifComplete_ends h fun _ => withFid_ends h fun i _ => rules.host h ?_ (.inr ⟨i, rfl⟩)
  rintro (- | -)
  · exact errnoFail_ends h rules
  · exact .inl h

theorem twstat_ends (hrnm : ∀ i, findFid s (c.low 4) = some i →
      newnameOf (wireSkip (wireSkip c 4) 2) ≠ [] →
      let newrel := renamed (s.fids i).path (newnameOf (wireSkip (wireSkip c 4) 2))
      Asks P g (.rename (hostPath s.root (s.fids i).path srvPathmax) (hostPath s.root newrel srvPathmax)) ∧
        K (s.setPath i (snprintf srvPathmax newrel)) g) : (twstat s c rxcap tag).wp P g (Ends J K) := by
  have h1 := reads.skip (n := 4) hc (by decide)
  unfold twstat wireGetU32 wireGetU16
  rw [reads.getLow hc (by decide), reads.getLow h1 (by decide)]
  refine ifComplete_ends h fun _ => withFid_ends h fun i hi => ?_
  rw [reads.wstatName (reads.skip h1 (by decide))]
  split
  · exact .inl h
  next hne =>
    obtain ⟨hask, hset⟩ := hrnm i hi hne
    apply hask.bind
    rintro (- | _)
    · exact errnoFail_ends h rules
    · exact .inr ⟨hset, (typed_hdr _ 127 tag).not_isRerror (by decide)⟩

end

/-! ### The messages that change a fid before they fail -/

section

variable (rules : Rules P J J)

include rules

theorem topen_ends (hli : ∀ {s g i}, J s g → (buildDirbuf s i).wp P g fun r g' => J r.2 g')
    (hop : ∀ i d flags, findFid s (c.low 4) = some i →
      (host (.open (hostPath s.root (s.fids i).path srvPathmax) flags 0)).wp P g fun r g' =>
        J ((s.setIsdir i d).setFd i (fdOf r)) g') : (topen s c rxcap tag).wp P g (Ends J J) := by
  unfold topen wireGetU32 wireGetU8
  rw [reads.getLow hc (by decide), reads.getLow (reads.skip hc (by decide)) (by decide)]
  refine ifComplete_ends h fun _ => withFid_ends h fun i hi => rules.host h ?_ (.inr ⟨i, rfl⟩)
  rintro (- | st)
  · exact errnoFail_ends h rules
  simp only
  split
  · apply wp_then (hli (rules.setIsdir h))
    rintro ⟨rc, s'⟩ g' hs'
    split
    · exact errnoFail_ends hs' rules
    · exact .inl hs'
  · apply wp_then (hop i _ _ hi)
    rintro (err | n) g' hs'
    · exact errnoFail_ends hs' rules
    · exact .inl hs'

theorem tcreate_ends (hst : ∀ i path, findFid s (c.low 4) = some i →
      pathStep (s.fids i).path (((wireSkip c 4).str (some 256)).getD []) = some path →
      J (s.setPath i path) g ∧ ((wireSkip c 4).pastStr.low 4 &&& p9Dmdir = 0 → ∀ flags perm,
        (host (.open (hostPath s.root path srvPathmax) flags perm)).wp P g fun r g' =>
          J ((s.setPath i path).setFd i (fdOf r)) g')) : (tcreate s c rxcap tag).wp P g (Ends J J) := by
  have h1 := reads.skip (n := 4) hc (by decide)
  have h2 := reads.pastStr h1 (by decide)
  have h3 := reads.skip (n := 4) h2 (by decide)
  unfold tcreate wireGetU32 wireGetU8
  rw [reads.getLow hc (by decide), reads.getStr h1 (by decide), reads.getLow h2 (by decide),
    reads.getLow h3 (by decide)]
  refine ifComplete_ends h fun _ => withFid_ends h fun i hi => ?_
  split
  next => exact .inl h
  next path hpa =>
    obtain ⟨hs, hop⟩ := hst i _ hi hpa
    have hcreated : ∀ {s' g'}, J s' g' → hostPath s.root path srvPathmax =
        hostPath s'.root (s'.fids i).path srvPathmax →
        (createdReply s' (hostPath s.root path srvPathmax) rxcap tag).wp P g' (Ends J J) := by
      intro s' g' hs' hown
      refine rules.host hs' ?_ (.inr ⟨i, hown⟩)
      rintro (- | -)
      · exact errnoFail_ends hs' rules
      · exact .inl hs'
    split
    · refine rules.host hs ?_ ⟨i, by rw [P9Server.setPath, setFid_self]⟩
      rintro (- | _)
      · exact errnoFail_ends hs rules
      · exact hcreated (rules.setIsdir hs) (by simp [P9Server.setIsdir, P9Server.setPath, setFid_self]; rfl)
    next hfi =>
      apply wp_then (hop (not_not.mp hfi) _ _)
      rintro (err | n) g' hs'
      · exact errnoFail_ends hs' rules
      · exact hcreated (rules.setIsdir hs')
          (by simp [P9Server.setIsdir, P9Server.setFd, P9Server.setPath, setFid_self]; rfl)

theorem tremove_ends : (tremove s c rxcap tag).wp P g (Ends J J) := by
  unfold tremove wireGetU32
  rw [reads.getLow hc (by decide)]
  refine ifComplete_ends h fun _ => withFid_ends h fun i hi => ?_
  have hca : (removeCall (s.fids i).isdir (hostPath s.root (s.fids i).path srvPathmax)).wp P g
      fun _ g' => g' = g := by
    unfold removeCall
    split
    · have hask := rules.ask (q := .rmdir _) h ⟨i, rfl⟩
      exact ⟨hask.1, fun r _ => hask.2 r⟩
    · have hask := rules.ask (q := .unlink _) h ⟨i, rfl⟩
      exact ⟨hask.1, fun r _ => hask.2 r⟩
  apply wp_then hca
  rintro - g' rfl
  apply wp_then (rules.clunk h (findFid_used hi))
  intro s' g' hs'
  split
  · exact errnoFail_ends hs' rules
  · exact .inl hs'

end

end Handlers

end Skjegg.Fs
