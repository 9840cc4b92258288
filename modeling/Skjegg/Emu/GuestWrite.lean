import Skjegg.Emu.GuestConfine
import Skjegg.Emu.GuestMemRun

/-!
# Writes that are parked

A `write` that finds its descriptor full keeps the count of the bytes written and is executed again.
`writev` has one count for all its buffers, and goes on behind a buffer that parks.
-/

namespace Skjegg.Emu

open Skjegg.Lib List Prog

/-! ## What the descriptor gets -/

def HostCall.output : (h : HostCall) → h.Ans → List UInt8
  | .write _ bytes, n => bytes.take n.toNat
  | _, _ => []

/-- A write takes at least one byte, and no more than there are. -/
def HostCall.Takes : (h : HostCall) → h.Ans → Bool
  | .write _ bytes, n => 0 < n ∧ n ≤ bytes.length
  | _, _ => true

/-- The ghost state is what has been written; a descriptor may be found full at any time. -/
def deliveries : Protocol HostCall HostCall.Ans (List UInt8) where
  may _ _ := True
  honest _ h r := h.Takes r = true
  next out h r := out ++ h.output r

instance (out : List UInt8) (h : HostCall) (r : h.Ans) : Decidable (deliveries.honest out h r) :=
  inferInstanceAs (Decidable (h.Takes r = true))

/-- The call completes with `out'` written, where `out` was before; when it parks it is executed again. -/
inductive Completes (c : Syscall) : Guest → List UInt8 → List UInt8 → Int → Prop
  | done {g g' : Guest} {tr : List (Sigma HostCall.Ans)} {out : List UInt8} {r : Int}
      (hrun : (guestSyscall g c).Runs tr (r, g')) (hhost : deliveries.Honest out tr)
      (hpark : g'.park ≠ .retry) : Completes c g out (deliveries.replay out tr) r
  | retry {g g' : Guest} {tr : List (Sigma HostCall.Ans)} {out out' : List UInt8} {r r' : Int}
      (hrun : (guestSyscall g c).Runs tr (r, g')) (hhost : deliveries.Honest out tr)
      (hpark : g'.park = .retry)
      (hrest : Completes c { g' with park := .none } (deliveries.replay out tr) out' r') :
      Completes c g out out' r'

variable (m : Nat → UInt8)

def bytesAt (a n : Nat) : List UInt8 := (range n).map fun k => m ((a + k) % 2 ^ 32)

/-- Buffer and length of the `iovec` entry at `a`. -/
def entryAt (e : Endian) (a : Nat) : Nat × Nat :=
  (e.decode (bytesAt m a 4), e.decode (bytesAt m (a + 4) 4))

/-- The bytes of `n` entries, from the one with index `i` on. -/
def gathered (e : Endian) (iov i n : Nat) : List UInt8 :=
  (range' i n).flatMap fun k => bytesAt m (entryAt m e (iov + k * 8)).1 (entryAt m e (iov + k * 8)).2

/-- The buffers of a `write` or `writev`, one behind the other. -/
def Guest.payload (g : Guest) (c : Syscall) : List UInt8 :=
  match c.sys with
  | .writev => gathered g.gm.mem.byteAt g.order c.a1.toNat 0 c.a2.toNat
  | _ => bytesAt g.gm.mem.byteAt c.a1.toNat c.a2.toNat

/-- The descriptor is not open, or a buffer cannot be read. -/
def Refused (r : Int) : Prop := r = ebadf ∨ r = efault

/-- A call that is not refused has written its buffers, each byte once, and counted them. -/
def Delivers (g : Guest) (c : Syscall) : Prop :=
  ∀ out r, Completes c g [] out r → ¬Refused r → out = g.payload c ∧ r = out.length

/-! ## What is read -/

section

variable {rest addr : Nat} {s s' : Gm}

theorem Gm.sparsePage_shows {p : Page} (hs : Sound rest s) (had : addr < 2 ^ 32)
    (h : s.sparsePage addr false = (some p, s')) : s'.mem.peek p (addr % 4096) = s'.mem.sparseByte addr := by
  have hblk := (@sparsePage_touch _ _ false s hs had).2 p (by rw [h])
  rw [h] at hblk
  obtain ⟨⟨b, rfl, hdir⟩, -⟩ := hblk
  unfold GuestMem.sparseByte
  rw [hdir]
  rfl

theorem Gm.page_shows {p : Page} (hs : Sound rest s) (had : addr < 2 ^ 32)
    (h : s.page addr false = (some p, s')) : s'.mem.peek p (addr % 4096) = s'.mem.byteAt addr := by
  have htch := (page_touch hs had h).1
  have hba : pageOf addr + addr % 4096 = addr := by
    unfold pageOf
    omega
  unfold GuestMem.byteAt
  rw [htch.frame.externSize, htch.vdso]
  unfold page at h
  split at h
  · next hext =>
    split at h
    · cases h
    · split at h <;> cases h
      simp [hext, GuestMem.peek, hba]
  · next hext =>
    split at h
    · next hvd => simpa [hext, hvd] using sparsePage_shows hs had h
    rename_i v hvd
    split at h
    · next hin =>
      cases h
      simp [hext, hvd, hin, GuestMem.peek]
    · next hout => simpa [hext, hvd, hout] using sparsePage_shows hs had h

theorem bytesAt_succ (a n : Nat) : bytesAt m a (n + 1) = m (a % 2 ^ 32) :: bytesAt m (a + 1) n := by
  unfold bytesAt
  rw [range_succ_eq_map, map_cons, map_map]
  congr 2
  funext k
  exact congrArg (fun x => m (x % 2 ^ 32)) (by simp only [Nat.succ_eq_add_one]; omega)

theorem bytesAt_append (a i j : Nat) : bytesAt m a i ++ bytesAt m (a + i) j = bytesAt m a (i + j) := by
  unfold bytesAt
  rw [range_add, map_append, map_map]
  simp [Function.comp_def, add_assoc]

theorem length_bytesAt (a n : Nat) : (bytesAt m a n).length = n := by
  rw [bytesAt, length_map, length_range]

theorem bytesAt_take {m : Nat → UInt8} {a n k : Nat} (h : k ≤ n) :
    (bytesAt m a n).take k = bytesAt m a k := by
  obtain ⟨j, rfl⟩ := Nat.exists_eq_add_of_le h
  rw [← bytesAt_append, take_left' (length_bytesAt ..)]

theorem copyFromGuest_shows {a n : Nat} {found : Option (List UInt8)} (hs : Gm.Sound rest s)
    (h : copyFromGuest s a n = (found, s')) : Gm.Sound rest s' ∧ s'.mem.byteAt = s.mem.byteAt ∧
      ∀ bytes, found = some bytes → bytes = bytesAt s.mem.byteAt a n := by
  induction n generalizing s a found with
  | zero =>
    cases h
    exact ⟨hs, rfl, fun _ h => (Option.some.inj h).symm⟩
  | succ n ih =>
    unfold copyFromGuest at h
    split at h
    · next hp =>
      cases h
      have htch := (Gm.page_touch hs (Gm.wrap_lt a) hp).1
      exact ⟨htch.sound, htch.bytes, nofun⟩
    rename_i p s1 hp
    have htch := (Gm.page_touch hs (Gm.wrap_lt a) hp).1
    have hshows := Gm.page_shows hs (Gm.wrap_lt a) hp
    split at h
    · next hrs =>
      cases h
      obtain ⟨hs', hbs, -⟩ := ih htch.sound hrs
      exact ⟨hs', hbs.trans htch.bytes, nofun⟩
    rename_i bs s2 hrs
    cases h
    obtain ⟨hs', hbs, hrd⟩ := ih htch.sound hrs
    refine ⟨hs', hbs.trans htch.bytes, fun bytes hb => ?_⟩
    cases hb
    rw [hrd bs rfl, bytesAt_succ, ← htch.bytes, ← hshows, show a % 2 ^ 32 % 4096 = a % 4096 by omega]

end

/-! ## One buffer -/

/-- The guest's memory holds the bytes `m`, and its writes to `fd` are not suppressed. -/
structure Holds (rest : Nat) (m : Nat → UInt8) (e : Endian) (fd : Nat) (g : Guest) : Prop where
  sound : Gm.Sound rest g.gm
  bytes : g.gm.mem.byteAt = m
  order : g.order = e
  loud : ¬(g.quiet = true ∧ (fd = 1 ∨ fd = 2))

/-- A `sys_write` of `len` bytes has written `d` of them behind `pre`: it is refused, parked, or has
written all. -/
def Wrote (rest : Nat) (m : Nat → UInt8) (e : Endian) (fd buf len : Nat) (park : Park) (pre : List UInt8)
    (r : Int × Guest) (out : List UInt8) : Prop :=
  Holds rest m e fd r.2 ∧ ∃ d, out = pre ++ bytesAt m buf d ∧
    ((d ≤ len - 1 ∧ r.2.wrParkedDone = 0 ∧ Refused r.1 ∧ r.2.park = park) ∨
      (d < len ∧ r.2.wrParkedDone = d ∧ r.1 = 0 ∧ r.2.park = .retry) ∨
      (d = len ∧ r.2.wrParkedDone = 0 ∧ r.1 = len ∧ r.2.park = park))

/-- What an execution of the call comes to: it is refused, parked behind a part of the payload, or has
written it. -/
def Attempt (rest : Nat) (m : Nat → UInt8) (e : Endian) (fd : Nat) (payload : List UInt8) (r : Int × Guest)
    (out : List UInt8) : Prop :=
  (Refused r.1 ∧ r.2.park = .none) ∨
    (Holds rest m e fd r.2 ∧ r.2.park = .retry ∧ r.2.wrParkedDone ≤ payload.length - 1 ∧
      out = payload.take r.2.wrParkedDone) ∨
    (out = payload ∧ r.1 = payload.length ∧ r.2.park = .none)

section

variable {rest fd buf len iov n i total : Nat} {hf : Int} {m : Nat → UInt8} {e : Endian} {g : Guest}
  {c : Syscall} {pre payload : List UInt8}

theorem Refused.neg {r : Int} (h : Refused r) : r < 0 := by
  rcases h with rfl | rfl
  · exact (by decide : ebadf < 0)
  · exact (by decide : efault < 0)

theorem int32_of_lt {n : Nat} (h : n < 2 ^ 31) : int32 n = n := by
  unfold int32
  rw [Int.bmod_def]
  split_ifs <;> omega

theorem Holds.copy {a n : Nat} {found : Option (List UInt8)} {s : Gm} (h : Holds rest m e fd g)
    (hcopy : copyFromGuest g.gm a n = (found, s)) :
    Holds rest m e fd (g.withGm s) ∧ ∀ bytes, found = some bytes → bytes = bytesAt m a n := by
  obtain ⟨hs, hbs, hrd⟩ := copyFromGuest_shows h.sound hcopy
  rw [h.bytes] at hbs hrd
  exact ⟨⟨hs, hbs, h.order, h.loud⟩, hrd⟩

variable {out : List UInt8}

theorem wp_wouldBlock {events : Nat} {Q : Bool → List UInt8 → Prop}
    (hQ : ∀ full, Q full out) : (wouldBlock hf events).wp deliveries out Q := by
  refine ⟨trivial, fun r _ => ?_⟩
  show Q _ (out ++ [])
  rw [append_nil]
  exact hQ _

theorem Holds.wrote {done : Nat} (h : Holds rest m e fd g) (h0 : g.wrParkedDone = 0) (hlen : len < 2 ^ 31)
    (hdn : done ≤ len) (hle : len ≤ done) :
    Wrote rest m e fd buf len g.park pre (int32 done, g) (pre ++ bytesAt m buf done) := by
  have hcnt := int32_of_lt hlen
  obtain rfl := le_antisymm hdn hle
  exact ⟨h, _, rfl, .inr (.inr ⟨rfl, h0, by rw [hcnt], rfl⟩)⟩

theorem wp_writeLoop {fuel done : Nat} (h : Holds rest m e fd g) (h0 : g.wrParkedDone = 0)
    (hlen : len < 2 ^ 31) (hdn : done ≤ len) (hfu : len ≤ done + fuel) :
    (writeLoop fd hf buf len fuel done g).wp deliveries (pre ++ bytesAt m buf done)
      (Wrote rest m e fd buf len g.park pre) := by
  induction fuel generalizing done g with
  | zero => exact h.wrote h0 hlen hdn hfu
  | succ fuel ih =>
    unfold writeLoop
    split
    · next hle => exact h.wrote h0 hlen hdn hle
    rename_i hlt
    dsimp only
    split
    · next hcopy =>
      exact ⟨(h.copy hcopy).1, done, rfl, .inl ⟨by omega, h0, .inr rfl, rfl⟩⟩
    rename_i bytes s hcopy
    obtain ⟨h', hrd⟩ := h.copy hcopy
    obtain rfl := hrd bytes rfl
    rw [if_neg h'.loud]
    refine wp_bind.mpr (wp_wouldBlock fun full => ?_)
    split
    · exact ⟨{ h' with }, done, rfl, .inr (.inl ⟨by omega, rfl, rfl, rfl⟩)⟩
    -- some of the chunk is written, and the loop goes on behind it
    refine wp_bind.mpr ⟨trivial, fun (n : Int) hn => ?_⟩
    obtain ⟨hpos, hle⟩ : 0 < n ∧ n ≤ _ := of_decide_eq_true hn
    obtain ⟨k, rfl⟩ := Int.eq_ofNat_of_zero_le hpos.le
    rw [length_bytesAt] at hle
    have hk := (Nat.le_min.mp (Int.ofNat_le.mp hle)).1
    show (if (k : Int) ≤ 0 then _ else writeLoop fd hf buf len fuel (done + k) _).wp deliveries
      (pre ++ bytesAt m buf done ++ (bytesAt m (buf + done) _).take k) _
    rw [if_neg (by omega), bytesAt_take (Int.ofNat_le.mp hle), append_assoc, bytesAt_append]
    exact ih h' h0 (by omega) (by omega)

theorem wp_sysWrite (pre : List UInt8) (h : Holds rest m e fd g) (hlen : len < 2 ^ 31)
    (hdn : g.wrParkedDone ≤ len - 1) :
    (sysWrite g fd buf len).wp deliveries (pre ++ bytesAt m buf g.wrParkedDone)
      (Wrote rest m e fd buf len g.park pre) := by
  unfold sysWrite
  dsimp only
  split
  · exact ⟨{ h with }, _, rfl, .inl ⟨hdn, rfl, .inl rfl, rfl⟩⟩
  · exact wp_writeLoop { h with } rfl hlen (by omega) (by omega)

theorem Wrote.attempt {r : Int × Guest} (h : Wrote rest m e fd buf len .none [] r out) :
    Attempt rest m e fd (bytesAt m buf len) r out := by
  obtain ⟨hg, d, rfl, ⟨-, -, hr, hpark⟩ | ⟨hd, hdn, -, hpark⟩ | ⟨rfl, -, hr, hpark⟩⟩ := h
  · exact .inl ⟨hr, hpark⟩
  · refine .inr (.inl ⟨hg, hpark, ?_, ?_⟩)
    · rw [hdn, length_bytesAt]
      omega
    · rw [hdn, bytesAt_take hd.le]
      rfl
  · refine .inr (.inr ⟨rfl, ?_, hpark⟩)
    rw [hr, length_bytesAt]

/-! ## Entries -/

theorem gathered_succ : gathered m e iov i (n + 1) =
    bytesAt m (entryAt m e (iov + i * 8)).1 (entryAt m e (iov + i * 8)).2 ++ gathered m e iov (i + 1) n := by
  rw [gathered, range'_succ, flatMap_cons]
  rfl

theorem wp_writevLoop_succ (iov n i total : Nat) (pre : List UInt8) {Q : Int × Guest → List UInt8 → Prop}
    (h : Holds rest m e fd g)
    (hlen : (entryAt m e (iov + i * 8)).2 < 2 ^ 31)
    (hdn : g.wrParkedDone ≤ (entryAt m e (iov + i * 8)).2 - 1)
    (hfail : ∀ s, Holds rest m e fd (g.withGm s) → Q (efault, g.withGm s)
      (pre ++ bytesAt m (entryAt m e (iov + i * 8)).1 g.wrParkedDone))
    (hrest : ∀ r out, Wrote rest m e fd (entryAt m e (iov + i * 8)).1 (entryAt m e (iov + i * 8)).2 g.park
      pre r out → (if r.1 < 0 then pure (if total ≠ 0 then int32 total else r.1, r.2)
        else writevLoop fd iov n (i + 1) ((total + r.1.toNat) % 2 ^ 32) r.2).wp deliveries out Q) :
    (writevLoop fd iov (n + 1) i total g).wp deliveries
      (pre ++ bytesAt m (entryAt m e (iov + i * 8)).1 g.wrParkedDone) Q := by
  unfold writevLoop
  split
  · next s hcopy => exact hfail s (h.copy hcopy).1
  rename_i w s hcopy
  obtain ⟨h', hrd⟩ := h.copy hcopy
  obtain rfl := hrd w rfl
  rw [← bytesAt_append m (iov + i * 8) 4 4, take_left' (length_bytesAt ..),
    drop_left' (length_bytesAt ..), h.order]
  exact wp_then (wp_sysWrite _ h' hlen hdn) hrest

theorem wp_writevLoop_one (h : Holds rest m e fd g) (hpark : g.park = .none)
    (hlen : (gathered m e iov 0 1).length < 2 ^ 31)
    (hdn : g.wrParkedDone ≤ (gathered m e iov 0 1).length - 1) :
    (writevLoop fd iov 1 0 0 g).wp deliveries ((gathered m e iov 0 1).take g.wrParkedDone)
      (Attempt rest m e fd (gathered m e iov 0 1)) := by
  have hone : gathered m e iov 0 1 = bytesAt m (entryAt m e (iov + 0 * 8)).1 (entryAt m e (iov + 0 * 8)).2 := by
    rw [gathered_succ]
    exact append_nil _
  rw [hone] at hlen hdn ⊢
  rw [length_bytesAt] at hlen hdn
  rw [bytesAt_take (by omega)]
  refine wp_writevLoop_succ _ _ _ _ [] h hlen hdn (fun s _ => .inl ⟨.inr rfl, hpark⟩) fun r out hr => ?_
  rw [hpark] at hr
  split
  · next hneg => exact hr.attempt
  rename_i hpos
  have hsm : int32 ((0 + r.1.toNat) % 2 ^ 32) = r.1 := by
    obtain ⟨-, d, -, ⟨-, -, hr, -⟩ | ⟨-, -, hr, -⟩ | ⟨-, -, hr, -⟩⟩ := hr
    · exact absurd hr.neg hpos
    · rw [hr]
      rfl
    · rw [hr, Int.toNat_natCast, zero_add, Nat.mod_eq_of_lt (by omega), int32_of_lt hlen]
  show Attempt rest m e fd _ (int32 ((0 + r.1.toNat) % 2 ^ 32), r.2) out
  rw [hsm]
  exact hr.attempt

/-- With one byte in all its buffers, a `writev` goes on behind a park to empty buffers only. -/
theorem wp_writevLoop_small (h : Holds rest m e fd g) (h0 : g.wrParkedDone = 0) (htotal : total = pre.length)
    (hone : payload.length ≤ 1) (hat : (g.park = .none ∧ pre ++ gathered m e iov i n = payload) ∨
      (g.park = .retry ∧ pre = [] ∧ gathered m e iov i n = [])) :
    (writevLoop fd iov n i total g).wp deliveries pre (Attempt rest m e fd payload) := by
  induction n generalizing i total g pre with
  | zero =>
    rcases hat with ⟨hpark, hpre⟩ | ⟨hpark, rfl, -⟩
    · have hpre : pre = payload := (append_nil pre).symm.trans hpre
      have hcnt : int32 payload.length = payload.length := int32_of_lt (by omega)
      rw [hpre] at htotal ⊢
      show Attempt rest m e fd payload (int32 total, g) payload
      rw [htotal, hcnt]
      exact .inr (.inr ⟨rfl, rfl, hpark⟩)
    · exact .inr (.inl ⟨h, hpark, h0 ▸ Nat.zero_le _, by rw [h0]; rfl⟩)
  | succ n ih =>
    have hlens : (entryAt m e (iov + i * 8)).2 ≤ 1 ∧ pre.length ≤ 1 ∧
        (pre ≠ [] → (entryAt m e (iov + i * 8)).2 = 0) := by
      rcases hat with ⟨-, hpre⟩ | ⟨-, rfl, hno⟩
      · have hsum := congrArg length hpre
        rw [gathered_succ, length_append, length_append, length_bytesAt] at hsum
        refine ⟨by omega, by omega, fun hne => ?_⟩
        have := length_pos_iff.mpr hne
        omega
      · have hsum := congrArg length hno
        rw [gathered_succ, length_append, length_bytesAt, length_nil] at hsum
        exact ⟨by omega, Nat.zero_le _, fun hne => absurd rfl hne⟩
    have hstart := wp_writevLoop_succ iov n i total pre
      (Q := Attempt rest m e fd payload) h (by omega) (h0 ▸ Nat.zero_le _) ?_ ?_
    · rw [h0, show bytesAt m _ 0 = [] from rfl, append_nil] at hstart
      exact hstart
    · intro s hs
      rcases hat with ⟨hpark, -⟩ | ⟨hpark, rfl, -⟩
      · exact .inl ⟨.inr rfl, hpark⟩
      · exact .inr (.inl ⟨hs, hpark, h0 ▸ Nat.zero_le _, by show _ = take g.wrParkedDone _; rw [h0]; rfl⟩)
    rw [gathered_succ] at hat
    rintro r _ ⟨hr, d, rfl, ⟨hd, hd0, hrf, hrp⟩ | ⟨hd, hdn, hz, hrp⟩ | ⟨rfl, hd0, hall, hrp⟩⟩
    · -- nothing of this entry is written
      obtain rfl : d = 0 := by omega
      rw [show bytesAt m _ 0 = [] from rfl, append_nil, if_pos hrf.neg]
      rcases hat with ⟨hpark, hpre⟩ | ⟨hpark, rfl, -⟩
      · by_cases hne : pre = []
        · rw [if_neg (by rw [htotal, hne]; exact fun h => h rfl)]
          exact .inl ⟨hrf, hrp.trans hpark⟩
        · have hpos := length_pos_iff.mpr hne
          -- the one byte has been written
          have hpre : pre = payload := IsPrefix.eq_of_length_le ⟨_, hpre⟩ (by omega)
          rw [if_pos (by omega)]
          have hcnt : int32 payload.length = payload.length := int32_of_lt (by omega)
          rw [htotal, hpre, hcnt]
          exact .inr (.inr ⟨rfl, rfl, hrp.trans hpark⟩)
      · rw [if_neg (by rw [htotal]; exact fun h => h rfl)]
        exact .inr (.inl ⟨hr, hrp.trans hpark, hd0 ▸ Nat.zero_le _, by rw [hd0]; rfl⟩)
    · -- the byte is parked, and the other entries are empty
      obtain rfl : d = 0 := by omega
      have hpre0 : pre = [] := by
        by_contra hne
        have := hlens.2.2 hne
        omega
      rw [hz, if_neg (lt_irrefl _)]
      apply ih hr hdn
      · rw [htotal, hpre0]
        rfl
      · rcases hat with ⟨-, hpre⟩ | ⟨-, -, hno⟩
        · have hsum := congrArg length hpre
          rw [length_append, length_append, length_bytesAt] at hsum
          exact .inr ⟨hrp, by rw [hpre0]; rfl, length_eq_zero_iff.mp (by omega)⟩
        · exact .inr ⟨hrp, by rw [hpre0]; rfl, (append_eq_nil_iff.mp hno).2⟩
    · rw [hall, if_neg (by omega), Int.toNat_natCast, Nat.mod_eq_of_lt (by omega)]
      apply ih hr hd0
      · rw [length_append, length_bytesAt, htotal]
      · rcases hat with ⟨hpark, hpre⟩ | ⟨hpark, rfl, hno⟩
        · exact .inl ⟨hrp.trans hpark, by rw [append_assoc]; exact hpre⟩
        · exact .inr ⟨hrp.trans hpark, (append_eq_nil_iff.mp hno).1, (append_eq_nil_iff.mp hno).2⟩

/-! ## Any number of attempts -/

/-- A `write`, or a `writev` of one entry or of one byte. -/
def Guest.OneBuffer (g : Guest) (c : Syscall) : Prop :=
  c.sys = .write ∨ c.sys = .writev ∧ (c.a2.toNat ≤ 1 ∨ (g.payload c).length ≤ 1)

theorem wp_dispatch (hc : g.OneBuffer c) (hlen : (g.payload c).length < 2 ^ 31) {g' : Guest}
    (h : Holds rest g.gm.mem.byteAt g.order c.a0.toNat g') (hpark : g'.park = .none)
    (hdn : g'.wrParkedDone ≤ (g.payload c).length - 1) :
    (dispatch g' c).wp deliveries ((g.payload c).take g'.wrParkedDone)
      (Attempt rest g.gm.mem.byteAt g.order c.a0.toNat (g.payload c)) := by
  unfold Guest.OneBuffer Guest.payload at *
  unfold dispatch
  have hsmall : c.sys = .writev → (gathered g.gm.mem.byteAt g.order c.a1.toNat 0 c.a2.toNat).length ≤ 1 →
      g'.wrParkedDone = 0 → (writevLoop c.a0.toNat c.a1.toNat c.a2.toNat 0 0 g').wp deliveries []
        (Attempt rest g.gm.mem.byteAt g.order c.a0.toNat
          (gathered g.gm.mem.byteAt g.order c.a1.toNat 0 c.a2.toNat)) :=
    fun _ hone h0 => wp_writevLoop_small h h0 rfl hone (.inl ⟨hpark, nil_append _⟩)
  rcases hc with hsys | ⟨hsys, hone⟩
  · rw [hsys] at hlen hdn ⊢
    rw [length_bytesAt] at hlen hdn
    rw [bytesAt_take (by omega)]
    refine wp_mono (wp_sysWrite [] h hlen hdn) fun r out hr => ?_
    rw [hpark] at hr
    exact hr.attempt
  rw [hsys] at hlen hdn hone ⊢
  rcases hone with hone | hone
  · obtain hz | hone := Nat.le_one_iff_eq_zero_or_eq_one.mp hone
    · rw [hz] at hsmall hdn ⊢
      have h0 : g'.wrParkedDone = 0 := Nat.le_zero.mp hdn
      rw [h0]
      exact hsmall hsys (Nat.zero_le _) h0
    · rw [hone] at hlen hdn ⊢
      exact wp_writevLoop_one h hpark hlen hdn
  · have h0 : g'.wrParkedDone = 0 := by
      dsimp only at hone hdn
      omega
    rw [h0]
    exact hsmall hsys hone h0

theorem wp_enter (h : Holds rest m e fd g) :
    g.enter.wp deliveries out fun g' out' => out' = out ∧ Holds rest m e fd g' ∧
      g'.wrParkedDone = g.wrParkedDone ∧ g'.park = .none := by
  have hone : ∀ {g'} i, Holds rest m e fd g' ∧ g'.wrParkedDone = g.wrParkedDone ∧ g'.park = .none →
      (g'.initFd i).wp deliveries out fun g'' out' => out' = out ∧ Holds _ m e fd g'' ∧
        g''.wrParkedDone = g.wrParkedDone ∧ g''.park = .none :=
    fun i h => ⟨trivial, fun _ _ => ⟨append_nil out, { h.1 with }, h.2⟩⟩
  unfold Guest.enter Guest.gfdInit
  split
  · exact ⟨rfl, { h with }, rfl, rfl⟩
  refine wp_then (hone 0 ⟨{ h with }, rfl, rfl⟩) ?_
  rintro g1 _ ⟨rfl, h1⟩
  refine wp_then (hone 1 h1) ?_
  rintro g2 _ ⟨rfl, h2⟩
  refine wp_then (hone 2 h2) ?_
  rintro g3 _ ⟨rfl, h3⟩
  exact ⟨rfl, { h3.1 with }, h3.2⟩

theorem Completes.delivered {out out' : List UInt8} {r : Int}
    (hca : ∀ g', Holds rest m e fd g' → g'.park = .none → g'.wrParkedDone ≤ payload.length - 1 →
      (dispatch g' c).wp deliveries (payload.take g'.wrParkedDone) (Attempt rest m e fd payload))
    (h : Completes c g out out' r) (hg : Holds rest m e fd g)
    (hdn : g.wrParkedDone ≤ payload.length - 1) (hout : out = payload.take g.wrParkedDone)
    (hr : ¬Refused r) : out' = payload ∧ r = payload.length := by
  have hattempt : ∀ {g out}, Holds rest m e fd g → g.wrParkedDone ≤ payload.length - 1 →
      out = payload.take g.wrParkedDone →
      (guestSyscall g c).wp deliveries out (Attempt rest m e fd payload) := by
    intro g out hg hdn hout
    refine wp_then (wp_enter hg) ?_
    rintro g' _ ⟨rfl, hg', hsm, hpark⟩
    rw [hout, ← hsm]
    exact hca g' hg' hpark (hsm ▸ hdn)
  induction h with
  | done hrun hht hpark =>
    obtain ⟨hrf, -⟩ | ⟨-, hretry, -⟩ | ⟨hall, hcnt, -⟩ :=
      (wp_sound (hattempt hg hdn hout) hrun hht).2
    · exact absurd hrf hr
    · exact absurd hretry hpark
    · exact ⟨hall, hcnt⟩
  | retry hrun hht hpark hrs ih =>
    obtain ⟨-, hno⟩ | ⟨hg', -, hle, hd⟩ | ⟨-, -, hno⟩ :=
      (wp_sound (hattempt hg hdn hout) hrun hht).2
    · exact absurd (hpark.symm.trans hno) nofun
    · exact ih { hg' with } hle hd hr
    · exact absurd (hpark.symm.trans hno) nofun

end

def pageGuest (bytes : List UInt8) : Guest := { grantedGuest with gm := pageGm bytes }

theorem pageGuest_sound (bytes : List UInt8) : Gm.Sound 0 (pageGuest bytes).gm := by
  have hmap := GuestMem.accounted_map (GuestMem.accounted_init 65536 false 0)
    (show Region.Aligned ⟨0x10000, 4096, 3⟩ from ⟨by decide, by decide⟩)
  exact (Gm.write_stored ⟨hmap, rfl, fun h => absurd rfl h⟩ _).sound

/-- An `iovec` of two entries, both the byte at `0x10010`. -/
def pairGuest : Guest := pageGuest [0x10, 0, 1, 0, 1, 0, 0, 0, 0x10, 0, 1, 0, 1, 0, 0, 0, 65]

/-- The descriptor is full once, the first time it is asked. -/
def fullOnce (n : Nat) : (h : HostCall) → h.Ans × Nat
  | .poll _ _ => (((n : Int), 4), n + 1)
  | .write _ bytes => ((bytes.length : Int), n)
  | h => (h.refusal, n)

def pairCall : Syscall := ⟨.writev, 3, 0x10000, 2, 0, 0⟩

/-- The first entry parks and the second is written. -/
def parkedRun : List (Sigma HostCall.Ans) × Int × Guest := (guestSyscall pairGuest pairCall).runIn fullOnce 0

def resumedRun : List (Sigma HostCall.Ans) × Int × Guest :=
  (guestSyscall { parkedRun.2.2 with park := .none } pairCall).runIn fullOnce 1

end Skjegg.Emu
