import Skjegg.Fs.P9Rules

/-!
# What the server reads of a request

A parse cursor never passes `2 ^ 21`, so its bounds checks do not wrap. Two sums are not bounded that
way: the position past the data of a `Twrite`, and past the length of the next frame of a stream.
-/

namespace Skjegg.Fs

open Skjegg.Lib List Prog

/-- In every run, every byte the program reads of the request is a byte of the request. -/
def ReadsInside {α : Type} (req : Request) (p : P9Prog α) : Prop :=
  ∀ tr a, Prog.Runs p tr a → ∀ ev ∈ tr, ev.1.Within req.base (req.base + req.len)

def Safe {α : Type} (lo hi : Nat) (p : P9Prog α) : Prop :=
  p.wp (.always (Reading.Within lo hi)) () fun _ _ => True

theorem readsInside_iff_safe {α : Type} {req : Request} {p : P9Prog α} :
    ReadsInside req p ↔ Safe req.base (req.base + req.len) p := by
  unfold ReadsInside Safe
  rw [wp_always_iff HostCall.nonempty_ans]
  exact ⟨fun h tr a hrun => ⟨h tr a hrun, trivial⟩, fun h tr a hrun => (h tr a hrun).1⟩

variable {cnt : Nat} {f : Nat × WireIn → P9Prog β}

section Rules

variable {α β : Type} {lo hi k : Nat} {c : WireIn} {s : P9Server} {rxcap tag : Nat}
  {i : Fin srvMaxfid}

theorem safe_pure {a : α} : Safe lo hi (pure a) := trivial

theorem Safe.bind {p : P9Prog α} {f : α → P9Prog β} (hp : Safe lo hi p)
    (hf : ∀ a, Safe lo hi (f a)) : Safe lo hi (p >>= f) :=
  wp_bind.mpr (wp_mono hp fun a _ _ => hf a)

theorem safe_host {h : HostCall} {f : h.Ans → P9Prog β} (hf : ∀ r, Safe lo hi (f r)) :
    Safe lo hi (host h >>= f) :=
  wp_bind.mpr (wp_host_within.mpr hf)

theorem safe_bind_iff {p : P9Prog α} {f : α → P9Prog β} :
    Safe lo hi (p >>= f) ↔ Safe lo hi p ∧ ∀ tr a, Prog.Runs p tr a → Safe lo hi (f a) :=
  wp_always_bind_iff HostCall.nonempty_ans

theorem safe_load_iff {off : Nat} {f : Unit → P9Prog β} :
    Safe lo hi (load off cnt >>= f) ↔ (lo ≤ off ∧ off + cnt ≤ hi) ∧ Safe lo hi (f ()) :=
  wp_bind.trans wp_load_within

theorem safe_loadEach_iff {offs : List Nat} {f : Unit → P9Prog β} :
    Safe lo hi (loadEach offs >>= f) ↔ (∀ off ∈ offs, lo ≤ off ∧ off < hi) ∧ Safe lo hi (f ()) :=
  wp_bind.trans wp_loadEach_within

/-! ### Parts of the server that read nothing -/

theorem safe_closeIf {p : Prop} [Decidable p] {fd : Int} : Safe lo hi (closeIf p fd) := by
  unfold closeIf
  split
  · exact wp_host_within.mpr fun _ => trivial
  · trivial

theorem safe_bindFid {fid : Nat} : Safe lo hi (bindFid s fid) := by
  simp only [bindFid]
  split
  · exact safe_closeIf.bind fun _ => safe_pure
  · exact safe_pure

theorem safe_clunkFid : Safe lo hi (clunkFid s i) := safe_closeIf.bind fun _ => safe_pure

theorem safe_errnoFail {err : Int} : Safe lo hi (errnoFail s rxcap tag err) := safe_host fun _ => safe_pure

theorem safe_dirRecords {d : Dir} (entries : List DirName) (o : WireOut) :
    Safe lo hi (dirRecords d entries o) := by
  induction entries generalizing o with
  | nil => exact safe_pure
  | cons e es ih =>
    unfold dirRecords
    split
    · exact ih o
    apply safe_host
    rintro (- | -)
    · exact ih o
    show Safe lo hi (if o.Full 512 then _ else _)
    split
    · apply safe_host
      rintro (_ | _)
      · exact safe_pure
      · exact ih _
    · exact ih _

theorem safe_buildDirbuf : Safe lo hi (buildDirbuf s i) := by
  simp only [buildDirbuf]
  split
  · exact safe_pure
  apply safe_host
  rintro (- | -)
  · exact safe_pure
  apply safe_host
  rintro (_ | _)
  · exact safe_host fun _ => safe_pure
  apply safe_host
  intro entries
  apply (safe_dirRecords _ _).bind
  rintro (o | o)
  all_goals exact safe_host fun _ => safe_pure

theorem safe_ifComplete {body : Handler} (hbo : c.ok → Safe lo hi body) :
    Safe lo hi (ifComplete s c rxcap tag body) := by
  unfold ifComplete
  split
  · exact hbo ‹_›
  · exact safe_pure

end Rules

/-! ## The messages -/

theorem inside_record {c : WireIn} {lo hi k : Nat} (h : c.Inside lo hi k) :
    (wireInInit c.mem (c.base + c.p) (c.len - c.p)).Inside lo hi 0 := by
  have hba := h.base_ge
  have hlen := h.base_len_le
  have hp := h.p_le_len
  exact ⟨by show lo ≤ c.base + c.p; omega, by show c.base + c.p + (c.len - c.p) ≤ hi; omega,
    Nat.zero_le _, le_rfl⟩

theorem reads_within (lo hi : Nat) : Reads (.always (Reading.Within lo hi)) fun c k => c.Inside lo hi k :=
  ⟨wp_wireGetLow_within, wp_wireGetStr_within, .skip, .pastStr, inside_record⟩

theorem withinRules (lo hi : Nat) :
    Rules (.always (Reading.Within lo hi)) (fun _ (_ : Unit) => True) fun _ _ => True where
  ask _ _ := ⟨trivial, fun _ => rfl⟩
  bind _ _ := wp_mono safe_bindFid (by rintro (_ | _) _ _ <;> trivial)
  clunk _ _ := safe_clunkFid
  setIsdir _ := trivial

/-! ## The data of a write -/

def Request.field (req : Request) (p n : Nat) : Nat :=
  lowValue ((range n).map fun i => req.mem (req.base + (p + i)))

/-- A write to an open file whose count carries the position past its data over `2 ^ 32`. -/
structure WriteOverruns (s : P9Server) (req : Request) : Prop where
  complete : 23 ≤ req.len
  type_eq : P9T.ofCode (req.field 4 1) = some .write
  isOpen : ∃ i, findFid s (req.field 7 4) = some i ∧ 0 ≤ (s.fids i).fd
  count_ge : 2 ^ 32 - 23 ≤ req.field 19 4

def Request.cursor (req : Request) (p : Nat) : WireIn := ⟨req.mem, req.base, req.len, p, true⟩

section Cursor

variable {req : Request} {c : WireIn} {p n : Nat}

theorem short_cursor_iff (h : p + n < 2 ^ 32) : (req.cursor p).Short n ↔ req.len < p + n := by
  show req.len < u32 (p + n) ↔ _
  rw [u32_of_lt h]

theorem skip_cursor (h : p + n ≤ req.len) : wireSkip (req.cursor p) n = req.cursor (p + n) := by
  have hlt := req.len_lt
  unfold wireSkip
  rw [if_neg ((short_cursor_iff (by omega)).not.mpr (by omega))]
  show (⟨req.mem, req.base, req.len, u32 (p + n), true⟩ : WireIn) = _
  rw [u32_of_lt (by omega)]
  rfl

theorem low_cursor (h : p + n ≤ req.len) : (req.cursor p).low n = req.field p n := by
  have hlt := req.len_lt
  unfold WireIn.low Request.field
  rw [if_neg ((short_cursor_iff (by omega)).not.mpr (by omega))]
  congr 1
  apply map_congr_left
  intro i hi
  have hin := mem_range.mp hi
  show req.mem (req.base + u32 (p + i)) = _
  rw [u32_of_lt (by omega)]

/-- The request stands in `[lo, hi)`, which ends before the request's first byte comes round again. -/
structure Request.In (req : Request) (lo hi : Nat) : Prop where
  base_ge : lo ≤ req.base
  end_le : req.base + req.len ≤ hi
  hi_lt : hi < req.base + 2 ^ 32

theorem Request.in_self (req : Request) : req.In req.base (req.base + req.len) :=
  ⟨le_rfl, le_rfl, Nat.add_lt_add_left req.len_lt _⟩

theorem Request.In.inside {lo hi : Nat} (h : req.In lo hi) (hp : p ≤ req.len) :
    (req.cursor p).Inside lo hi p :=
  ⟨h.base_ge, h.end_le, hp, le_rfl⟩

theorem body_eq (h : 7 ≤ req.len) : req.body = req.cursor 7 := by
  show wireSkip (wireSkip (wireSkip (req.cursor 0) 4) 1) 2 = _
  rw [skip_cursor (by omega), skip_cursor (by omega), skip_cursor (by omega)]

theorem type_eq (h : 7 ≤ req.len) : req.type = req.field 4 1 := by
  show (wireSkip (req.cursor 0) 4).low 1 = _
  rw [skip_cursor (by omega), low_cursor (by omega)]

theorem le_of_skip_ok (hp : p + n < 2 ^ 32) (hok : (wireSkip (req.cursor p) n).ok) : p + n ≤ req.len := by
  have hft := (ok_of_ok_skip hok).2
  rw [short_cursor_iff hp] at hft
  omega

end Cursor

section Write

variable {req : Request} {s : P9Server} {rxcap tag lo hi : Nat}

theorem header_complete (hok : req.body.ok) : 7 ≤ req.len := by
  have hok2 : (wireSkip (wireSkip (req.cursor 0) 4) 1).ok := (ok_of_ok_skip hok).1
  have h4 : 4 ≤ req.len := le_of_skip_ok (by decide) (ok_of_ok_skip hok2).1
  have hok3 : (wireSkip (wireSkip (wireSkip (req.cursor 0) 4) 1) 2).ok := hok
  rw [skip_cursor (by omega)] at hok2 hok3
  have h5 : 5 ≤ req.len := le_of_skip_ok (by decide) hok2
  rw [skip_cursor (by omega)] at hok3
  exact le_of_skip_ok (by decide) hok3

theorem writeHeader_complete
    (hok : (wireSkip (wireSkip (wireSkip (wireSkip (req.cursor 7) 4) 4) 4) 4).ok) : 23 ≤ req.len := by
  have hok3 := (ok_of_ok_skip hok).1
  have hok2 := (ok_of_ok_skip hok3).1
  have h11 : 11 ≤ req.len := le_of_skip_ok (by decide) (ok_of_ok_skip hok2).1
  rw [skip_cursor h11] at hok hok3 hok2
  have h15 : 15 ≤ req.len := le_of_skip_ok (by decide) hok2
  rw [skip_cursor h15] at hok hok3
  have h19 : 19 ≤ req.len := le_of_skip_ok (by decide) hok3
  rw [skip_cursor h19] at hok
  exact le_of_skip_ok (by decide) hok

theorem data_inside_iff (hin : req.In lo hi) (hcnt : cnt < 2 ^ 32) (hft : ¬ (req.cursor 23).Short cnt) :
    req.base + 23 + cnt ≤ hi ↔ cnt < 2 ^ 32 - 23 := by
  have hend := hin.end_le
  have hhi := hin.hi_lt
  constructor
  · omega
  · intro hsm
    rw [short_cursor_iff (by omega)] at hft
    omega

theorem short_of_overrun (h : 23 ≤ req.len) (hcnt : cnt < 2 ^ 32)
    (hbig : 2 ^ 32 - 23 ≤ cnt) : ¬ (req.cursor 23).Short cnt := by
  show ¬ req.len < u32 (23 + cnt)
  unfold u32
  omega

theorem twrite_safe_iff (hin : req.In lo hi) (h : 7 ≤ req.len)
    (hty : P9T.ofCode (req.field 4 1) = some .write) :
    Safe lo hi (twrite s (req.cursor 7) rxcap tag) ↔ ¬ WriteOverruns s req := by
  have h0 := hin.inside h
  have h1 := h0.skip (n := 4) (by decide)
  have h2 := (h1.skip (n := 4) (by decide)).skip (n := 4) (by decide)
  have reads := reads_within lo hi
  unfold twrite Safe wireGetU32
  rw [reads.getLow h0 (by decide), reads.getU64 h1 (by decide), reads.getLow h2 (by decide)]
  by_cases hlen : 23 ≤ req.len
  case neg =>
    have hov : ¬ WriteOverruns s req := fun ho => hlen ho.complete
    exact iff_of_true (safe_ifComplete fun hok => absurd (writeHeader_complete hok) hlen) hov
  have hcnt : req.field 19 4 < 2 ^ 32 := by
    have hlow := low_lt (req.cursor 19) 4
    rwa [low_cursor (by omega)] at hlow
  rw [low_cursor (by omega), skip_cursor (by omega), skip_cursor (by omega), skip_cursor (by omega),
    low_cursor (by omega), low_cursor (by omega), low_cursor (by omega), skip_cursor (by omega)]
  show Safe _ _ (withFid s (req.field 7 4) rxcap tag _) ↔ _
  unfold withFid
  cases hfid : findFid s _ with
  | none =>
    apply iff_of_true safe_pure
    rintro ⟨-, -, ⟨i, hi, -⟩, -⟩
    cases hfid.symm.trans hi
  | some i =>
    have hop : WriteOverruns s req ↔ 0 ≤ (s.fids i).fd ∧ 2 ^ 32 - 23 ≤ req.field 19 4 := by
      constructor
      · rintro ⟨-, -, ⟨j, hj, hfd⟩, hcount⟩
        cases hfid.symm.trans hj
        exact ⟨hfd, hcount⟩
      · rintro ⟨hfd, hcount⟩
        exact ⟨hlen, hty, ⟨i, hfid, hfd⟩, hcount⟩
    rw [hop]
    simp only
    split
    case isTrue hfd => exact iff_of_true safe_pure (by omega)
    case isFalse hfd =>
      split
      case isTrue hsho =>
        apply iff_of_true safe_pure
        rintro ⟨-, hcount⟩
        exact short_of_overrun hlen hcnt hcount hsho
      case isFalse hft =>
        have hdata := data_inside_iff hin hcnt hft
        rw [safe_load_iff]
        constructor
        · rintro ⟨⟨-, hle⟩, -⟩ ⟨-, hcount⟩
          have hlt := hdata.mp hle
          omega
        intro hno
        refine ⟨⟨le_trans hin.base_ge (Nat.le_add_right _ _), hdata.mpr (by omega)⟩, ?_⟩
        apply safe_host
        rintro (- | -)
        · exact safe_errnoFail
        · exact safe_pure

theorem handle_safe_iff (hin : req.In lo hi) :
    Safe lo hi (p9ServerHandle s req rxcap) ↔ ¬ WriteOverruns s req := by
  have h0 : (wireInInit req.mem req.base req.len).Inside lo hi 0 := hin.inside (Nat.zero_le _)
  have h3 : req.body.Inside lo hi 7 := ((h0.skip (by decide)).skip (by decide)).skip
    (by decide)
  have reads := reads_within lo hi
  unfold p9ServerHandle Safe
  rw [reads.header h0]
  by_cases hlen : 7 ≤ req.len
  case neg =>
    have hov : ¬ WriteOverruns s req := fun ho => hlen (by have := ho.complete; omega)
    exact iff_of_true (safe_ifComplete fun hok => absurd (header_complete hok) hlen) hov
  rw [body_eq hlen] at h3
  rw [type_eq hlen, body_eq hlen]
  show Safe _ _ (dispatch s (req.cursor 7) rxcap (req.field 4 1) req.tag) ↔ _
  unfold dispatch
  have rules := withinRules lo hi
  have other : ∀ {p : Handler}, P9T.ofCode (req.field 4 1) ≠ some .write →
      p.wp _ () (Ends (fun _ _ => True) fun _ _ => True) → (Safe lo hi p ↔ ¬ WriteOverruns s req) :=
    fun hne h => iff_of_true (wp_mono h fun _ _ _ => trivial) fun ho => hne ho.type_eq
  cases hco : P9T.ofCode _ with
  | none => exact other (by rw [hco]; decide) (.inl trivial)
  | some t =>
    rw [hco] at other
    cases t with
    | write => exact twrite_safe_iff hin hlen hco
    | version => exact other (by decide) (tversion_ends trivial reads h3 trivial)
    | attach => exact other (by decide) (tattach_ends trivial reads h3 rules)
    | walk =>
      refine other (by decide) (twalk_ends trivial reads h3 rules (W := fun _ _ _ => True) ?_
        (fun _ _ => trivial) fun _ _ => trivial)
      exact fun _ _ _ _ _ _ _ _ => ⟨⟨trivial, fun _ => rfl⟩, trivial⟩
    | «open» =>
      refine other (by decide) (topen_ends trivial reads h3 rules (fun _ => safe_buildDirbuf) ?_)
      exact fun _ _ _ _ => wp_host_within.mpr fun _ => trivial
    | create =>
      refine other (by decide) (tcreate_ends trivial reads h3 rules fun _ _ _ _ => ⟨trivial, ?_⟩)
      exact fun _ _ _ => wp_host_within.mpr fun _ => trivial
    | read => exact other (by decide) (tread_ends trivial reads h3 rules)
    | clunk => exact other (by decide) (tclunk_ends trivial reads h3 rules)
    | remove => exact other (by decide) (tremove_ends trivial reads h3 rules)
    | stat => exact other (by decide) (tstat_ends trivial reads h3 rules)
    | wstat =>
      refine other (by decide) (twstat_ends trivial reads h3 rules ?_)
      exact fun _ _ _ => ⟨⟨trivial, fun _ => rfl⟩, trivial⟩

end Write

/-! ## Streams -/

structure Stream where
  s : P9Server
  roff : Nat
  out : List UInt8

section Streams

variable {req : Request} {rxcap : Nat}

def Dispatches (req : Request) (roff : Nat) : Prop :=
  u32 (roff + 4) ≤ req.len ∧ 7 ≤ frameLen req roff ∧ frameLen req roff ≤ req.len - roff

/-- One round of the loop, with some answers of the host. -/
def StreamStep (req : Request) (rxcap : Nat) (st st' : Stream) : Prop :=
  Dispatches req st.roff ∧ ∃ tr r,
    Prog.Runs (p9ServerHandle st.s (frame req st.roff) (u32 (rxcap + 2 ^ 32 - st.out.length))) tr
      (st'.s, r) ∧
    0 < asInt r.length ∧ st'.roff = st.roff + frameLen req st.roff ∧ st'.out = st.out ++ r

/-- The next frame does not start in the last four possible positions, and is not a write that
overruns. -/
structure RoundSafe (req : Request) (st : Stream) : Prop where
  roff_lt : st.roff < 2 ^ 32 - 4
  frame : Dispatches req st.roff → ¬ WriteOverruns st.s (frame req st.roff)

theorem frameBytes_inside_iff {roff : Nat} (h : roff ≤ req.len) (hlen : u32 (roff + 4) ≤ req.len) :
    (∀ off ∈ frameBytes req roff, req.base ≤ off ∧ off < req.base + req.len) ↔ roff < 2 ^ 32 - 4 := by
  have hlt := req.len_lt
  constructor
  · intro hall
    by_contra hge
    -- the last index of all is one of the four, and no request is long enough for it
    have hls := hall _
      (mem_map.mpr ⟨2 ^ 32 - 1 - roff, mem_range.mpr (by omega), rfl⟩)
    rw [u32_of_lt (by omega)] at hls
    omega
  · intro hroff off hoff
    obtain ⟨i, hi, rfl⟩ := mem_map.mp hoff
    have hi4 := mem_range.mp hi
    rw [u32_of_lt (by omega)] at hlen ⊢
    omega

theorem frame_in {roff : Nat} (h : roff ≤ req.len) (hft : frameLen req roff ≤ req.len - roff) :
    (frame req roff).In req.base (req.base + req.len) := by
  have hlt := req.len_lt
  refine ⟨?_, ?_, ?_⟩
  · show req.base ≤ req.base + roff
    omega
  · show req.base + roff + frameLen req roff ≤ req.base + req.len
    omega
  · show req.base + req.len < req.base + roff + 2 ^ 32
    omega

theorem streamLoop_safe_step {st : Stream} (h : st.roff ≤ req.len) :
    Safe req.base (req.base + req.len) (streamLoop req rxcap st.s st.roff h st.out) ↔
      RoundSafe req st ∧ ∀ st' (h' : st'.roff ≤ req.len), StreamStep req rxcap st st' →
        Safe req.base (req.base + req.len) (streamLoop req rxcap st'.s st'.roff h' st'.out) := by
  rw [streamLoop]
  split
  case isTrue hend =>
    have hsp : ¬ Dispatches req st.roff := fun hd => absurd hd.1 (by omega)
    have hroff : st.roff < 2 ^ 32 - 4 := by
      unfold u32 at hend
      omega
    exact iff_of_true safe_pure ⟨⟨hroff, fun hd => absurd hd hsp⟩, fun _ _ hs => absurd hs.1 hsp⟩
  case isFalse hmo =>
    rw [safe_loadEach_iff, frameBytes_inside_iff h (by omega)]
    split
    case isTrue hbad =>
      have hsp : ¬ Dispatches req st.roff := fun hd => by
        have := hd.2
        omega
      exact ⟨fun hs => ⟨⟨hs.1, fun hd => absurd hd hsp⟩, fun _ _ hst => absurd hst.1 hsp⟩,
        fun hs => ⟨hs.1.roff_lt, safe_pure⟩⟩
    case isFalse hgd =>
      have hdisp : Dispatches req st.roff := ⟨by omega, by omega, by omega⟩
      rw [safe_bind_iff, handle_safe_iff (frame_in h (by omega))]
      constructor
      · rintro ⟨hroff, hov, hnx⟩
        refine ⟨⟨hroff, fun _ => hov⟩, ?_⟩
        rintro ⟨s', -, -⟩ - ⟨-, tr, r, hrun, hpos, rfl, rfl⟩
        have hlp := hnx tr _ hrun
        simp only [if_neg (not_le.mpr hpos)] at hlp
        exact hlp
      · rintro ⟨hrnd, hnx⟩
        refine ⟨hrnd.roff_lt, hrnd.frame hdisp, ?_⟩
        rintro tr ⟨s', r⟩ hrun
        simp only
        split
        case isTrue => exact safe_pure
        case isFalse hpos =>
          have hend : st.roff + frameLen req st.roff ≤ req.len := by omega
          exact hnx ⟨s', _, _⟩ hend ⟨hdisp, tr, r, hrun, by omega, rfl, rfl⟩

theorem StreamStep.roff_le {st st' : Stream} (h : st.roff ≤ req.len)
    (hst : StreamStep req rxcap st st') : st'.roff ≤ req.len ∧ st.roff < st'.roff := by
  obtain ⟨⟨-, hlo, hft⟩, _, _, -, -, hroff, -⟩ := hst
  omega

theorem streamLoop_safe_iff (st : Stream) (h : st.roff ≤ req.len) :
    Safe req.base (req.base + req.len) (streamLoop req rxcap st.s st.roff h st.out) ↔
      ∀ st', Relation.ReflTransGen (StreamStep req rxcap) st st' → RoundSafe req st' := by
  -- every round moves `roff` towards the end of the request
  induction hn : req.len - st.roff using Nat.strong_induction_on generalizing st with
  | _ n ih =>
    rw [streamLoop_safe_step h]
    constructor
    · rintro ⟨hrnd, hnx⟩ st' hrch
      rcases hrch.cases_head with rfl | ⟨mid, hst, hrs⟩
      · exact hrnd
      · have hmid := hst.roff_le h
        exact (ih _ (by omega) mid hmid.1 rfl).mp (hnx mid hmid.1 hst) st' hrs
    · intro hall
      refine ⟨hall st .refl, fun st' h' hst => ?_⟩
      have hmid := hst.roff_le h
      exact (ih _ (by omega) st' h' rfl).mpr fun st'' hrs => hall _ (.head hst hrs)

end Streams

/-- One message is read inside the request exactly when it is not a write that overruns, a stream
exactly when every round it can come to is safe. -/
theorem reads_inside_iff (s : P9Server) (req : Request) (rxcap : Nat) :
    (ReadsInside req (p9ServerHandle s req rxcap) ↔ ¬ WriteOverruns s req) ∧
      (ReadsInside req (p9ServerHandleStream s req rxcap) ↔
        ∀ st, Relation.ReflTransGen (StreamStep req rxcap) ⟨s, 0, []⟩ st → RoundSafe req st) := by
  constructor
  · rw [readsInside_iff_safe, handle_safe_iff req.in_self]
  · rw [readsInside_iff_safe]
    exact streamLoop_safe_iff ⟨s, 0, []⟩ (Nat.zero_le _)

def openZero : P9Server := ⟨[], fun _ => ⟨true, false, 3, [], none, 0⟩⟩

/-- A `Twrite` of fid 0 that is nothing but its header, with a count of `2 ^ 32 - 1`. -/
def hugeWrite : Request :=
  Request.ofBytes (lowBytes 4 23 ++ [118] ++ replicate 14 0 ++ lowBytes 4 (2 ^ 32 - 1)) (by decide)

/-- The count of a write can send the host's read past the end of the request. -/
theorem hugeWrite_reads_outside :
    ¬ ((∀ (s : P9Server) (req : Request) (rxcap : Nat), ReadsInside req (p9ServerHandle s req rxcap)) ∧
      ∀ (s : P9Server) (req : Request) (rxcap : Nat),
        ReadsInside req (p9ServerHandleStream s req rxcap)) := by
  rintro ⟨hall, -⟩
  have hsafe := (readsInside_iff_safe.mp (hall openZero hugeWrite 64))
  rw [handle_safe_iff hugeWrite.in_self] at hsafe
  exact hsafe ⟨by decide +kernel, by decide +kernel, ⟨⟨0, by decide⟩, by decide +kernel, by decide +kernel⟩,
    by decide +kernel⟩

end Skjegg.Fs
