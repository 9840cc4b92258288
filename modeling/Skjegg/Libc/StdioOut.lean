import Skjegg.Lib.Run
import Skjegg.Libc.Stdio

/-!
# Output streams over any behaviour of the descriptor

The kernel answers with counts of its own choice, errors included. As long as no call fails in a
character path, and none behind a successful one in `fflush` or the block path, the accepted bytes
are the delivered ones followed by those in the buffer.
-/

namespace Skjegg.Libc

open List Option

/-! ## The descriptor -/

/-- A descriptor that answers its calls in turn with `answers`, cut to what it was offered. -/
structure Sink where
  answers : Nat → Int
  calls : Nat
  delivered : List UInt8

def Sink.answer (w : Sink) (bytes : List UInt8) : Int := min (w.answers w.calls) bytes.length

def Sink.offer (w : Sink) (bytes : List UInt8) : Int × Sink :=
  (w.answer bytes,
    { w with calls := w.calls + 1, delivered := w.delivered ++ bytes.take (w.answer bytes).toNat })

def sinkSys : Sys Sink where
  write w bytes := w.offer bytes
  writev w a b := w.offer (a ++ b)
  read w _ := (0, [], w)
  lseek w _ _ := (-1, w)
  close w := (0, w)

/-- The calls from number `a` on and before `b` all have a positive answer. -/
def Sink.Steady (w : Sink) (a b : Nat) : Prop := ∀ k, a ≤ k → k < b → 0 < w.answers k

def Sink.Clean (w : Sink) (a b : Nat) : Prop :=
  ∀ j k, a ≤ j → j < k → k < b → 0 < w.answers j → 0 < w.answers k

structure Sink.Took (w : Sink) (bytes : List UInt8) (k : Nat) (w' : Sink) : Prop where
  answers : w'.answers = w.answers
  delivered : w'.delivered = w.delivered ++ bytes.take k
  calls : w.calls ≤ w'.calls
  earned : 0 < k → ∃ j, w.calls ≤ j ∧ j < w'.calls ∧ 0 < w.answers j

structure Sink.Failed (w w' : Sink) : Prop where
  called : w.calls < w'.calls
  last : w.answers (w'.calls - 1) ≤ 0

variable {w w' : Sink} {accepted block bytes : List UInt8} {k m : Nat} {f : File} {s : Output}
  {vectored : Bool}

theorem Sink.Failed.not_steady (h : w.Failed w') : ¬ w.Steady w.calls w'.calls := by
  intro hsy
  have hca := h.called
  have hpos := hsy (w'.calls - 1) (by omega) (by omega)
  have hls := h.last
  omega

theorem Sink.Took.eq_zero_of_failed
    (h : w.Took bytes k w') (hfa : w.Failed w') (hcln : w.Clean w.calls w'.calls) : k = 0 := by
  by_contra hk
  obtain ⟨j, hj, hlt, hpos⟩ := h.earned (pos_of_ne_zero hk)
  have hls := hfa.last
  have hne : j ≠ w'.calls - 1 := by
    rintro rfl
    omega
  have hafter := hcln j (w'.calls - 1) hj (by omega) (by omega) hpos
  omega

theorem Sink.Took.refl (w : Sink) (bytes : List UInt8) : w.Took bytes 0 w :=
  ⟨rfl, by simp, le_rfl, fun h => absurd h (Nat.lt_irrefl 0)⟩

theorem Sink.Took.trans {w'' : Sink}
    (h : w.Took bytes m w') (h' : w'.Took (bytes.drop m) k w'') : w.Took bytes (m + k) w'' where
  answers := h'.answers.trans h.answers
  delivered := by rw [h'.delivered, h.delivered, append_assoc, take_add]
  calls := h.calls.trans h'.calls
  earned hpos := by
    by_cases hm : 0 < m
    · obtain ⟨j, hj, hlt, hj'⟩ := h.earned hm
      exact ⟨j, hj, hlt.trans_le h'.calls, hj'⟩
    · obtain ⟨j, hj, hlt, hj'⟩ := h'.earned (by omega)
      exact ⟨j, h.calls.trans hj, hlt, h.answers ▸ hj'⟩

theorem Sink.Failed.after {w'' : Sink} (h : w.Took bytes m w') (h' : w'.Failed w'') : w.Failed w'' where
  called := h.calls.trans_lt h'.called
  last := h.answers ▸ h'.last

theorem Sink.Took.append (h : w.Took bytes k w')
    (hk : k ≤ bytes.length) (more : List UInt8) : w.Took (bytes ++ more) k w' where
  answers := h.answers
  delivered := by rw [h.delivered, take_append_of_le_length hk]
  calls := h.calls
  earned := h.earned

theorem Sink.answer_le (w : Sink) (bytes : List UInt8) : (w.answer bytes).toNat ≤ bytes.length := by
  rw [Sink.answer]
  omega

theorem Sink.took_offer (w : Sink) (bytes : List UInt8) :
    w.Took bytes (w.answer bytes).toNat (w.offer bytes).2 where
  answers := rfl
  delivered := rfl
  calls := Nat.le_succ _
  earned hpos := by
    rw [Sink.answer] at hpos
    exact ⟨w.calls, le_rfl, Nat.lt_succ_self _, by omega⟩

theorem Sink.failed_offer (hne : bytes ≠ []) (h : w.answer bytes ≤ 0) : w.Failed (w.offer bytes).2 where
  called := Nat.lt_succ_self _
  last := by
    have hlen : 0 < bytes.length := length_pos_of_ne_nil hne
    rw [Sink.answer] at h
    show w.answers w.calls ≤ 0
    omega

theorem writeAll_sink (bytes : List UInt8) (w : Sink) :
    ∃ ok w' k, writeAll sinkSys bytes w = (ok, w') ∧ k ≤ bytes.length ∧ w.Took bytes k w' ∧
      (ok = true ∧ k = bytes.length ∨ ok = false ∧ w.Failed w') := by
  induction bytes, w using writeAll.induct sinkSys with
  | case1 w => exact ⟨true, w, 0, by rw [writeAll]; rfl, le_rfl, .refl w [], .inl ⟨rfl, rfl⟩⟩
  | case2 bytes w hne n w' hwr hn =>
    have hca : w.offer bytes = (n, w') := hwr
    have hanswer : w.answer bytes = n := congrArg Prod.fst hca
    have htk := w.took_offer bytes
    rw [hanswer, Int.toNat_of_nonpos hn, hca] at htk
    have hfa := Sink.failed_offer hne (hanswer.le.trans hn)
    rw [hca] at hfa
    refine ⟨false, w', 0, ?_, Nat.zero_le _, htk, .inr ⟨rfl, hfa⟩⟩
    rw [writeAll, if_neg hne]
    simp [hwr, if_pos hn]
  | case3 bytes w hne n w' hwr hn ih =>
    obtain ⟨ok, w'', k, hrs, hk, htk, hcs⟩ := ih
    have hca : w.offer bytes = (n, w') := hwr
    have hanswer : w.answer bytes = n := congrArg Prod.fst hca
    have hle := w.answer_le bytes
    have hfst := w.took_offer bytes
    rw [hanswer, hca] at hfst
    rw [length_drop] at hk hcs
    refine ⟨ok, w'', n.toNat + k, ?_, by omega, hfst.trans htk, ?_⟩
    · rw [writeAll, if_neg hne]
      simp [hwr, if_neg hn, hrs]
    · rcases hcs with ⟨rfl, hk'⟩ | ⟨rfl, hfa⟩
      · exact .inl ⟨rfl, by omega⟩
      · exact .inr ⟨rfl, .after hfst hfa⟩

/-! ## The stream -/

/-- The stream can take bytes, and the accepted ones are the delivered ones and the pending ones. -/
structure Holds (f : File) (w : Sink) (accepted : List UInt8) : Prop where
  writable : f.canWrite = true
  room : f.pos < bufsiz
  accounted : w.delivered ++ f.pending = accepted

theorem fflush_sink (hwr : f.canWrite = true) (hpos : f.pos ≤ bufsiz) (w : Sink) :
    ∃ r f' w' k, fflush sinkSys f w = (r, f', w') ∧ k ≤ f.pos ∧ w.Took f.pending k w' ∧
      (r = 0 ∧ k = f.pos ∧ f' = { f with pos := 0 } ∨
        r = eof ∧ f' = { f with err := true } ∧ w.Failed w') := by
  unfold fflush
  by_cases hz : f.pos = 0
  · refine ⟨0, f, w, 0, ?_, Nat.zero_le _, .refl w _, .inl ⟨rfl, hz.symm, ?_⟩⟩
    · simp [hz]
    · cases f
      simp_all
  obtain ⟨ok, w', k, hall, hk, htk, hcs⟩ := writeAll_sink _ w
  rw [File.pending_length hpos] at hk hcs
  simp only [hwr, beq_eq_false_iff_ne.mpr hz, hall]
  rcases hcs with ⟨rfl, hk'⟩ | ⟨rfl, hfa⟩
  · exact ⟨_, _, w', k, rfl, hk, htk, .inl ⟨rfl, hk', rfl⟩⟩
  · exact ⟨_, _, w', k, rfl, hk, htk, .inr ⟨rfl, rfl, hfa⟩⟩

theorem fputc_sink (h : Holds f w accepted) (c : Int) :
    ∃ r f' w', fputc sinkSys c f w = some (r, f', w') ∧ w.calls ≤ w'.calls ∧ w'.answers = w.answers ∧
      (r ≠ eof ∧ Holds f' w' (accepted ++ [byteOf c]) ∨ r = eof ∧ ¬ w.Steady w.calls w'.calls) := by
  obtain ⟨f1, hstore, hpen, hpos, hcan, -⟩ := f.store_spec h.room _
  have hrm := h.room
  have hbyte : ((byteOf c).toNat : Int) ≠ eof := by
    rw [eof]
    omega
  have hacc : w.delivered ++ f1.pending = accepted ++ [byteOf c] := by
    rw [hpen, ← append_assoc, h.accounted]
  simp only [fputc, h.writable, hstore, bind_eq_bind, bind_some]
  by_cases hfl : f1.flushes c = true
  · obtain ⟨r, f2, w', k, hff, -, htk, hcs⟩ := fflush_sink (hcan.trans h.writable) (by omega) w
    rw [if_pos hfl, hff]
    refine ⟨_, f2, w', rfl, htk.calls, htk.answers, ?_⟩
    rcases hcs with ⟨rfl, rfl, rfl⟩ | ⟨rfl, rfl, hfa⟩
    · refine .inl ⟨hbyte, hcan.trans h.writable, Nat.succ_pos _, ?_⟩
      rw [htk.delivered, ← File.pending_length (by omega), take_length, hacc]
      exact append_nil _
    · exact .inr ⟨rfl, hfa.not_steady⟩
  · rw [if_neg hfl]
    refine ⟨_, f1, w, rfl, le_rfl, rfl, .inl ⟨hbyte, hcan.trans h.writable, ?_, hacc⟩⟩
    have hne : f1.pos ≠ bufsiz := by
      intro heq
      simp [File.flushes, heq] at hfl
    omega

theorem putEach_sink (bytes : List UInt8) (h : Holds f w accepted) :
    ∃ i f' w', putEach sinkSys bytes f w = some (i, f', w') ∧ w.calls ≤ w'.calls ∧ w'.answers = w.answers ∧
      (i = bytes.length ∧ Holds f' w' (accepted ++ bytes) ∨ ¬ w.Steady w.calls w'.calls) := by
  induction bytes generalizing f w accepted with
  | nil => exact ⟨0, f, w, rfl, le_rfl, rfl, .inl ⟨rfl, by rwa [append_nil]⟩⟩
  | cons b bytes ih =>
    obtain ⟨r, f1, w1, hput, hcal, hans, hcs⟩ := fputc_sink h b.toNat
    rw [byteOf_toNat] at hcs
    simp only [putEach, hput, bind_eq_bind, bind_some]
    rcases hcs with ⟨hr, hho⟩ | ⟨rfl, hfa⟩
    · obtain ⟨i, f2, w2, hrs, hcal', hans', hcs'⟩ := ih hho
      rw [if_neg hr, hrs]
      refine ⟨i + 1, f2, w2, rfl, hcal.trans hcal', hans'.trans hans, ?_⟩
      rcases hcs' with ⟨rfl, hho'⟩ | hfa
      · exact .inl ⟨rfl, by rwa [append_assoc] at hho'⟩
      · refine .inr fun hsy => hfa fun k hk hk' => ?_
        rw [hans]
        exact hsy k (hcal.trans hk) hk'
    · exact ⟨0, f1, w1, rfl, hcal, hans, .inr hfa⟩

/-- How a row of calls that should take all of `bytes` and empty the buffer can end. -/
def Drained (f : File) (w : Sink) (bytes : List UInt8) (out : Bool × File × Sink) : Prop :=
  ∃ k, w.Took bytes k out.2.2 ∧ (out.1 = true ∧ k = bytes.length ∧ out.2.1 = { f with pos := 0 } ∨
      out.1 = false ∧ out.2.1 = f ∧ w.Failed out.2.2)

theorem Drained.after {out : Bool × File × Sink} (h : w.Took bytes m w') (hm : m ≤ bytes.length)
    (hrs : Drained f w' (bytes.drop m) out) : Drained f w bytes out := by
  obtain ⟨k, htk, hcs⟩ := hrs
  refine ⟨m + k, h.trans htk, ?_⟩
  rcases hcs with ⟨hok, hk, hf⟩ | ⟨hok, hf, hfa⟩
  · rw [length_drop] at hk
    exact .inl ⟨hok, by omega, hf⟩
  · exact .inr ⟨hok, hf, .after h hfa⟩

theorem writeBoth_sink (f : File) (first second : List UInt8) (w : Sink) :
    Drained f w (first ++ second) (writeBoth sinkSys f first second w) := by
  obtain ⟨ok, w1, k, hfst, hk, htk, hcs⟩ := writeAll_sink _ w
  unfold writeBoth
  rw [hfst]
  rcases hcs with ⟨rfl, rfl⟩ | ⟨rfl, hfa⟩
  · apply Drained.after (htk.append le_rfl _) (by simp)
    rw [drop_left]
    obtain ⟨ok', w2, k', hsnd, -, htk', hcs'⟩ := writeAll_sink second w1
    simp only [hsnd]
    rcases hcs' with ⟨rfl, rfl⟩ | ⟨rfl, hfa⟩
    · exact ⟨_, htk', .inl ⟨rfl, rfl, rfl⟩⟩
    · exact ⟨_, htk', .inr ⟨rfl, rfl, hfa⟩⟩
  · exact ⟨k, htk.append hk _, .inr ⟨rfl, rfl, hfa⟩⟩

theorem flushWithBlock_sink (hpos : f.pos ≤ bufsiz) (vectored : Bool) (block : List UInt8) (w : Sink) :
    Drained f w (f.pending ++ block) (flushWithBlock sinkSys vectored f block block.length w) := by
  cases vectored with
  | false =>
    simp only [flushWithBlock, Int.toNat_natCast, take_length]
    exact writeBoth_sink f _ _ w
  | true =>
    have htk := w.took_offer (f.pending ++ block)
    have hle := w.answer_le (f.pending ++ block)
    have hca : sinkSys.writev w f.pending block =
        (w.answer (f.pending ++ block), (w.offer (f.pending ++ block)).2) := rfl
    rcases flushWithBlock_writev hpos hca hle with ⟨hall, hfl⟩ | ⟨hneg, hfl⟩ |
      ⟨first, second, hlf, hfl⟩ <;> rw [hfl]
    · exact ⟨_, htk, .inl ⟨rfl, by omega, rfl⟩⟩
    · refine ⟨_, htk, .inr ⟨rfl, rfl, Nat.lt_succ_self _, ?_⟩⟩
      rw [Sink.answer] at hneg
      show w.answers w.calls ≤ 0
      omega
    · apply Drained.after htk hle
      rw [← hlf]
      exact writeBoth_sink f _ _ _

/-! ## Sequences of calls -/

/-- A call on the stream; the block of `fwrite` has the bytes it is said to have. -/
inductive OutOp
  | fputc (c : Int)
  | fputs (s : List UInt8)
  | fwrite (size nmemb : Nat) (block : List UInt8) (h : block.length = size * nmemb)
  | fflush

/-- The stream, its descriptor, and the bytes the calls have accepted so far by what they returned. -/
structure Output where
  file : File
  sink : Sink
  accepted : List UInt8

def outStep (vectored : Bool) (s : Output) : OutOp → Option (Output × Int)
  | .fputc c => do
      let (r, f, w) ← fputc sinkSys c s.file s.sink
      some (⟨f, w, s.accepted ++ if r = eof then [] else [byteOf c]⟩, r)
  | .fputs str => do
      let (r, i, f, w) ← fputs sinkSys str s.file s.sink
      some (⟨f, w, s.accepted ++ str.take i⟩, r)
  | .fwrite size nmemb block _ => do
      let (n, f, w) ← fwrite sinkSys vectored block size nmemb s.file s.sink
      some (⟨f, w, s.accepted ++ block.take (n * size)⟩, n)
  | .fflush =>
    let (r, f, w) := fflush sinkSys s.file s.sink
    some (⟨f, w, s.accepted⟩, r)

/-- A stream just opened on a descriptor with these answers. -/
def Output.start (canRead : Bool) (mode : BufMode) (answers : Nat → Int) : Output where
  file := File.fresh canRead true mode
  sink := { answers, calls := 0, delivered := [] }
  accepted := []

def Output.Bypasses (s : Output) (total : Nat) : Prop := s.file.mode = .full ∧ bufsiz - s.file.pos < total

instance (s : Output) (total : Nat) : Decidable (s.Bypasses total) := inferInstanceAs (Decidable (_ ∧ _))

/-- A block that goes past the buffer has a length that is an `int`. -/
def OutOp.Measured (s : Output) : OutOp → Prop
  | .fwrite size nmemb _ _ => s.Bypasses (size * nmemb) → size * nmemb < 2 ^ 31
  | _ => True

/-- Whether the system calls from `s` to `s'` went well enough for the call that made them. -/
def OutOp.Served (s s' : Output) : OutOp → Prop
  | .fputc _ | .fputs _ => s.sink.Steady s.sink.calls s'.sink.calls
  | .fwrite size nmemb _ _ =>
    if s.Bypasses (size * nmemb) then s.sink.Clean s.sink.calls s'.sink.calls
    else s.sink.Steady s.sink.calls s'.sink.calls
  | .fflush => s.sink.Clean s.sink.calls s'.sink.calls

/-- The call is one that the stream can take in this state, as its system calls will be answered. -/
def OutOp.Meets (vectored : Bool) (s : Output) (o : OutOp) : Prop :=
  o.Measured s ∧ ∀ s' r, outStep vectored s o = some (s', r) → o.Served s s'

/-- The bytes handed to the descriptor are the first of the accepted ones. -/
def Output.InOrder (s : Output) : Prop := s.sink.delivered <+: s.accepted

theorem Holds.inOrder (h : Holds s.file s.sink s.accepted) : s.InOrder := ⟨s.file.pending, h.accounted⟩

theorem Drained.holds {out : Bool × File × Sink}
    (h : Holds f w accepted) (hout : Drained f w (f.pending ++ block) out)
    (hcln : w.Clean w.calls out.2.2.calls) : out.1 = true ∧ Holds out.2.1 out.2.2 (accepted ++ block) ∨
      out.1 = false ∧ out.2.1 = f ∧ Holds f out.2.2 accepted := by
  obtain ⟨k, htk, ⟨hok, rfl, hf⟩ | ⟨hok, hf, hfa⟩⟩ := hout
  · refine .inl ⟨hok, ?_, ?_, ?_⟩
    · rw [hf]
      exact h.writable
    · rw [hf]
      exact Nat.succ_pos _
    · rw [hf, htk.delivered, take_length, ← append_assoc, h.accounted]
      exact append_nil _
  · obtain rfl := htk.eq_zero_of_failed hfa hcln
    refine .inr ⟨hok, hf, h.writable, h.room, ?_⟩
    rw [htk.delivered, take_zero, append_nil, h.accounted]

theorem fwrite_past_buffer {size nmemb : Nat}
    (h : Holds s.file s.sink s.accepted) (hblk : block.length = size * nmemb)
    (hz : ¬ (size = 0 ∨ nmemb = 0)) (hpt : s.Bypasses (size * nmemb))
    (hsm : size * nmemb < 2 ^ 31) :
    ∃ n f w, fwrite sinkSys vectored block size nmemb s.file s.sink = some (n, f, w) ∧
      (s.sink.Clean s.sink.calls w.calls → Holds f w (s.accepted ++ block.take (n * size))) := by
  have hcd : s.file.canWrite = true ∧ s.file.mode = .full ∧
      bufsiz - s.file.pos < size * nmemb := ⟨h.writable, hpt.1, hpt.2⟩
  have hdr := flushWithBlock_sink h.room.le vectored block s.sink
  simp only [fwrite, if_neg hz, if_pos hcd, toInt_of_lt hsm]
  rw [← hblk]
  generalize flushWithBlock _ _ _ _ _ _ = out at hdr
  obtain ⟨ok, f, w⟩ := out
  cases ok with
  | true =>
    refine ⟨nmemb, f, w, rfl, fun hcln => ?_⟩
    rcases hdr.holds h hcln with ⟨-, hho⟩ | ⟨hfalse, -⟩
    · rwa [mul_comm, ← hblk, take_length]
    · cases hfalse
  | false =>
    refine ⟨0, _, w, rfl, fun hcln => ?_⟩
    rcases hdr.holds h hcln with ⟨htr, -⟩ | ⟨-, rfl, hho⟩
    · cases htr
    · rw [zero_mul, take_zero, append_nil]
      exact ⟨hho.writable, hho.room, hho.accounted⟩

theorem fwrite_bytewise {size nmemb : Nat}
    (h : Holds s.file s.sink s.accepted) (hblk : block.length = size * nmemb)
    (hz : ¬ (size = 0 ∨ nmemb = 0)) (hpt : ¬ s.Bypasses (size * nmemb)) :
    ∃ n f w, fwrite sinkSys vectored block size nmemb s.file s.sink = some (n, f, w) ∧
      (s.sink.Steady s.sink.calls w.calls → Holds f w (s.accepted ++ block.take (n * size))) := by
  have hcd : ¬ (s.file.canWrite = true ∧ s.file.mode = .full ∧
      bufsiz - s.file.pos < size * nmemb) := fun hc => hpt hc.2
  obtain ⟨i, f, w, hput, -, -, hcs⟩ := putEach_sink _ h
  refine ⟨i / size, f, w, ?_, fun hsy => ?_⟩
  · simp only [fwrite, if_neg hz, if_neg hcd]
    rw [← hblk, take_length, hput]
    rfl
  · rcases hcs with ⟨rfl, hho⟩ | hfa
    · have hsz : 0 < size := by omega
      rwa [hblk, Nat.mul_div_cancel_left _ hsz, mul_comm, ← hblk, take_length]
    · exact absurd hsy hfa

theorem outStep_holds {o : OutOp} (h : Holds s.file s.sink s.accepted) (hmts : o.Meets vectored s) :
    ∃ s' r, outStep vectored s o = some (s', r) ∧ Holds s'.file s'.sink s'.accepted := by
  obtain ⟨hmeasured, hsrv⟩ := hmts
  cases o with
  | fputc c =>
    obtain ⟨r, f, w, hput, -, -, hcs⟩ := fputc_sink h c
    have hst : outStep vectored s (.fputc c) =
        some (⟨f, w, s.accepted ++ if r = eof then [] else [byteOf c]⟩, r) := by
      simp [outStep, hput]
    refine ⟨_, r, hst, ?_⟩
    rcases hcs with ⟨hr, hho⟩ | ⟨-, hfa⟩
    · simpa only [if_neg hr] using hho
    · exact absurd (hsrv _ _ hst) hfa
  | fputs str =>
    obtain ⟨i, f, w, hput, -, -, hcs⟩ := putEach_sink str h
    have hst : outStep vectored s (.fputs str) =
        some (⟨f, w, s.accepted ++ str.take i⟩, if i < str.length then eof else 0) := by
      simp [outStep, fputs, hput]
    refine ⟨_, _, hst, ?_⟩
    rcases hcs with ⟨rfl, hho⟩ | hfa
    · simpa only [take_length] using hho
    · exact absurd (hsrv _ _ hst) hfa
  | fwrite size nmemb block hblk =>
    have hst {n : Nat} {f : File} {w : Sink}
        (hca : fwrite sinkSys vectored block size nmemb s.file s.sink = some (n, f, w)) :
        outStep vectored s (.fwrite _ _ _ hblk) =
          some ((⟨f, w, s.accepted ++ block.take (n * size)⟩ : Output), (n : Int)) := by
      simp [outStep, hca]
    by_cases hz : size = 0 ∨ nmemb = 0
    · have hca : fwrite sinkSys vectored block size nmemb s.file s.sink = some (0, s.file, s.sink) := by
        rw [fwrite, if_pos hz]
      refine ⟨_, _, hst hca, ?_⟩
      simpa only [zero_mul, take_zero, append_nil] using h
    by_cases hpt : s.Bypasses (size * nmemb)
    · obtain ⟨n, f, w, hca, hho⟩ := fwrite_past_buffer h hblk hz hpt (hmeasured hpt)
      have hcln := hsrv _ _ (hst hca)
      rw [OutOp.Served, if_pos hpt] at hcln
      exact ⟨_, _, hst hca, hho hcln⟩
    · obtain ⟨n, f, w, hca, hho⟩ := fwrite_bytewise h hblk hz hpt
      have hsy := hsrv _ _ (hst hca)
      rw [OutOp.Served, if_neg hpt] at hsy
      exact ⟨_, _, hst hca, hho hsy⟩
  | fflush =>
    obtain ⟨r, f, w, k, hff, -, htk, hcs⟩ := fflush_sink h.writable h.room.le s.sink
    have hst : outStep vectored s .fflush = some (⟨f, w, s.accepted⟩, r) := by
      simp [outStep, hff]
    have hlen := File.pending_length h.room.le
    refine ⟨_, r, hst, ?_⟩
    rcases hcs with ⟨-, rfl, rfl⟩ | ⟨-, rfl, hfa⟩
    · refine ⟨h.writable, Nat.succ_pos _, ?_⟩
      rw [htk.delivered, ← hlen, take_length, h.accounted]
      exact append_nil _
    · obtain rfl := htk.eq_zero_of_failed hfa (hsrv _ _ hst)
      refine ⟨h.writable, h.room, ?_⟩
      rw [htk.delivered, take_zero, append_nil]
      exact h.accounted

/-- In every sequence of calls that are well enough served, no byte is stored outside the buffer and
after every call the bytes handed to the descriptor are the first of the accepted ones. -/
theorem run_inOrder_of_meets (vectored canRead : Bool) (mode : BufMode) (answers : Nat → Int)
    (ops : List OutOp) (h : Lib.OpsMeet (outStep vectored) (fun s o => o.Meets vectored s)
      (.start canRead mode answers) ops) :
    Lib.RunAll (outStep vectored) (fun _ _ s' _ => s'.InOrder) (.start canRead mode answers) ops := by
  have hst : ∀ s o, Holds s.file s.sink s.accepted → o.Meets vectored s →
      ∃ s' r, outStep vectored s o = some (s', r) ∧ s'.InOrder ∧ Holds s'.file s'.sink s'.accepted := by
    intro s o hho hmts
    obtain ⟨s', r, hs', hho'⟩ := outStep_holds hho hmts
    exact ⟨s', r, hs', hho'.inOrder, hho'⟩
  exact Lib.runAll_of_inv hst ⟨rfl, Nat.succ_pos _, rfl⟩ h

/-- A line put with a descriptor that takes one byte at a time. -/
theorem run_inOrder_of_meets_line : Lib.OpsMeet (outStep true) (fun s o => o.Meets true s)
        (.start false .line fun _ => 1) [.fputs [97, 98, 10]] ∧
      Lib.RunAll (outStep true) (fun _ _ s' _ => s'.InOrder)
        (.start false .line fun _ => 1) [.fputs [97, 98, 10]] := by
  have hmts : Lib.OpsMeet (outStep true) (fun s o => o.Meets true s)
      (.start false .line fun _ => 1) [.fputs [97, 98, 10]] :=
    ⟨⟨trivial, fun _ _ _ _ _ _ => one_pos⟩, fun _ _ _ => trivial⟩
  exact ⟨hmts, run_inOrder_of_meets true false .line (fun _ => 1) _ hmts⟩

theorem putEach_stored (bytes : List UInt8) (w : Sink) (hwr : f.canWrite = true)
    (hmd : f.mode = .full) (hrm : f.pos + bytes.length < bufsiz) :
    ∃ f', putEach sinkSys bytes f w = some (bytes.length, f', w) ∧ f'.canWrite = true ∧
      f'.mode = .full ∧ f'.pos = f.pos + bytes.length := by
  induction bytes generalizing f with
  | nil => exact ⟨f, rfl, hwr, hmd, rfl⟩
  | cons b bytes ih =>
    rw [length_cons] at hrm
    obtain ⟨f1, hstore, -, hpos, hcan, hmode1, -⟩ := f.store_spec (by omega : f.pos < bufsiz) b
    have hkp : f1.flushes b.toNat = false := by
      simp only [File.flushes, hmode1, hmd, Bool.or_eq_false_iff, Bool.and_eq_false_iff]
      exact ⟨⟨beq_eq_false_iff_ne.mpr (by omega), rfl⟩, .inl rfl⟩
    have hput : fputc sinkSys b.toNat f w = some ((b.toNat : Int), f1, w) := by
      simp [fputc, hwr, byteOf_toNat, hstore, hkp]
    obtain ⟨f2, hrs, hcan2, hmode2, hpos2⟩ := ih (hcan.trans hwr) (hmode1.trans hmd) (by omega)
    refine ⟨f2, ?_, hcan2, hmode2, by rw [hpos2, hpos, length_cons]; omega⟩
    have hne : ((b.toNat : Int)) ≠ eof := by
      rw [eof]
      omega
    simp [putEach, hput, hrs, if_neg hne]

theorem fputc_overruns (hwr : f.canWrite = true)
    (hpos : f.pos = bufsiz - 1) (hfls : ∀ k, w.answers k ≤ 0) (c : Int) :
    ∃ f' w', fputc sinkSys c f w = some (eof, f', w') ∧ fputc sinkSys c f' w' = none := by
  have hsz : f.pos + 1 = bufsiz := by
    rw [hpos]
    rfl
  obtain ⟨f1, hstore, -, hpos1, hcan, -⟩ := f.store_spec (by omega : f.pos < bufsiz) (byteOf c)
  obtain ⟨r, -, w', k, hff, -, htk, ⟨-, rfl, -⟩ | ⟨rfl, rfl, -⟩⟩ :=
    fflush_sink (hcan.trans hwr) (by omega) w
  · -- a flush that succeeded would have had a positive answer
    obtain ⟨j, -, -, hj⟩ := htk.earned (by omega)
    have := hfls j
    omega
  have hfl : f1.flushes c = true := by simp [File.flushes, hpos1, hsz]
  refine ⟨{ f1 with err := true }, w', ?_, ?_⟩
  · simp [fputc, hwr, hstore, hfl, hff]
  · have hfu : ¬ f1.pos < bufsiz := by omega
    simp [fputc, hcan, hwr, File.store, hfu]

/-- Two bytes put, a flush whose second write fails behind a short one, and a flush that succeeds. -/
def flushTwice : List OutOp := [.fputc 97, .fputc 98, .fflush, .fflush]

def failsSecond (k : Nat) : Int :=
  if k = 0 then 1 else if k = 1 then -1 else 1000

/-- All of the buffer but one byte, and two bytes more. -/
def fillUp : List OutOp := [.fputs (replicate 1023 97), .fputc 98, .fputc 98]

/-- A failed flush delivers bytes twice, and lets `fputc` store behind the buffer. -/
theorem failed_flush_repeats_and_overruns :
    ¬ Lib.RunAll (outStep true) (fun _ _ s' _ => s'.InOrder) (.start false .full failsSecond) flushTwice ∧
      ¬ Lib.RunAll (outStep true) (fun _ _ s' _ => s'.InOrder) (.start false .full fun _ => -1) fillUp := by
  constructor
  · intro h
    obtain ⟨s', rs, hrun, hord⟩ := h.final ⟨[], rfl⟩
    have hsent : (Lib.runOps (outStep true) (.start false .full failsSecond) flushTwice).map
        (fun res => (res.1.sink.delivered, res.1.accepted)) = some ([97, 97, 98], [97, 98]) := by
      decide +kernel
    rw [hrun, map_some, some.injEq, Prod.mk.injEq] at hsent
    rw [Output.InOrder, hsent.1, hsent.2] at hord
    exact absurd hord (by decide)
  intro h
  obtain ⟨s₁, r₁, hputs, -, s₂, r₂, hput, -, s₃, r₃, hov, -⟩ := h
  obtain ⟨f₁, hsto, hcan, -, hpos⟩ :=
    putEach_stored (replicate 1023 97) (f := File.fresh false true .full)
      { answers := fun _ => -1, calls := 0, delivered := [] } rfl rfl
      (by rw [length_replicate]; decide)
  rw [length_replicate] at hpos
  obtain ⟨f₂, w₂, hfst, hsnd⟩ :=
    fputc_overruns (w := { answers := fun _ => -1, calls := 0, delivered := [] }) hcan hpos
      (fun _ => Int.negSucc_le_zero 0) 98
  simp only [outStep, Output.start, fputs, hsto, bind_eq_bind, bind_some,
    some.injEq, Prod.mk.injEq] at hputs
  obtain ⟨rfl, -⟩ := hputs
  simp only [outStep, hfst, bind_eq_bind, bind_some, some.injEq, Prod.mk.injEq] at hput
  obtain ⟨rfl, -⟩ := hput
  simp only [outStep, hsnd, bind_eq_bind, bind_none] at hov
  cases hov

end Skjegg.Libc
