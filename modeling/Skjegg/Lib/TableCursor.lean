import Skjegg.Lib.Run

/-!
# Cursors over tables that change

A cursor goes over the slots of a table and remembers how often the table had been modified when the cursor
was made.  Where everything that moves an entry is counted, and the count does not come round to the one that
is remembered, the cursor stops or gives every entry exactly once.
-/

namespace Skjegg.Lib

open List

variable {M κ ω : Type}

/-- What a cursor sees of a table; modifications are counted in 32 bits. -/
structure SlotView (κ : Type) where
  cap : Nat
  entry : Nat → Option κ
  modcount : Nat

structure Cursor where
  pos : Nat
  modcount : Nat

/-- What an operation on the table or a step of the cursor gives. -/
inductive CursorOut (κ : Type)
  | trapped
  | entry (k : κ)
  | ended
  | done

def CursorOut.given : CursorOut κ → List κ
  | .entry k => [k]
  | _ => []

namespace SlotView

def before (t : SlotView κ) (pos : Nat) : List κ :=
  (range pos).filterMap t.entry

/-- The loop over the slots that are left: the position behind the next entry, and the entry. -/
def scan (t : SlotView κ) : Nat → Nat → Nat × Option κ
  | 0, pos => (pos, none)
  | left + 1, pos =>
      match t.entry pos with
      | none => t.scan left (pos + 1)
      | some k => (pos + 1, some k)

theorem before_succ (t : SlotView κ) (pos : Nat) :
    t.before (pos + 1) = t.before pos ++ (t.entry pos).toList := by
  rw [before, range_succ, filterMap_append]
  cases h : t.entry pos <;> simp [before, h]

theorem before_scan (t : SlotView κ) (left pos : Nat) :
    t.before (t.scan left pos).1 = t.before pos ++ (t.scan left pos).2.toList := by
  induction left generalizing pos with
  | zero => simp [scan]
  | succ left ih =>
    rw [scan]
    cases h : t.entry pos with
    | none => simp only [ih, before_succ, h, Option.toList_none, append_nil]
    | some k => simp only [before_succ, h]

theorem scan_pos (t : SlotView κ) (left pos : Nat) :
    (t.scan left pos).1 ≤ pos + left ∧ ((t.scan left pos).2 = none → (t.scan left pos).1 = pos + left) := by
  induction left generalizing pos with
  | zero => exact ⟨le_rfl, fun _ => rfl⟩
  | succ left ih =>
    rw [scan]
    cases h : t.entry pos with
    | none =>
      rw [show pos + (left + 1) = pos + 1 + left by omega]
      exact ih (pos + 1)
    | some k => exact ⟨by show pos + 1 ≤ _; omega, nofun⟩

theorem before_sublist (t : SlotView κ) {pos : Nat} (h : pos ≤ t.cap) :
    (t.before pos).Sublist (t.before t.cap) := by
  obtain ⟨n, hn⟩ := Nat.exists_eq_add_of_le h
  rw [before, before, hn, range_add, filterMap_append]
  exact sublist_append_left _ _

end SlotView

def Cursor.next (c : Cursor) (t : SlotView κ) : Cursor × CursorOut κ :=
  if t.modcount ≠ c.modcount then (c, .trapped)
  else
    let r := t.scan (t.cap - c.pos) c.pos
    ({ c with pos := r.1 }, r.2.elim .ended .entry)

/-- A kind of table with its operations.  A table may be absent; an operation need not return. -/
structure Table (M κ ω : Type) where
  view : M → SlotView κ
  change : Option M → ω → Option (Option M)
  modifies : ω → Bool

inductive IterOp (ω : Type)
  | next
  | change (o : ω)

structure Iteration (M κ : Type) where
  map : Option M
  cursor : Option Cursor
  yielded : List κ

namespace Table

variable (T : Table M κ ω)

def entries (a : Option M) : List κ :=
  (a.map fun m => (T.view m).before (T.view m).cap).getD []

/-- A cursor is made. -/
def start (a : Option M) : Iteration M κ :=
  ⟨a, a.map fun m => ⟨0, (T.view m).modcount⟩, []⟩

def step (s : Iteration M κ) : IterOp ω → Option (Iteration M κ × CursorOut κ)
  | .next =>
      match s.cursor, s.map with
      | some c, some m =>
          let r := c.next (T.view m)
          some (⟨s.map, some r.1, s.yielded ++ r.2.given⟩, r.2)
      | _, _ => some (s, .ended)
  | .change o => (T.change s.map o).map fun a => ({ s with map := a }, .done)

/-- A step that gives an entry has given none twice and none that is not there, and one that ends has given
them all. -/
def Right (s : Iteration M κ) : CursorOut κ → Prop
  | .entry _ => s.yielded.Subperm (T.entries s.map)
  | .ended => s.yielded.Perm (T.entries s.map)
  | _ => True

/-- Whatever was done since the cursor was made, its next step stops or is right. -/
def YieldsOnce (a : Option M) (ops : List (IterOp ω)) : Prop :=
  ∀ s outs, runOps T.step (T.start a) ops = some (s, outs) →
    ∀ s' out, T.step s .next = some (s', out) → T.Right s' out

/-- The changes that move entries uncounted apart, a change moves no entry or is counted. -/
def Counts (moves : Option M → ω → Prop) : Prop :=
  ∀ a o a', T.change a o = some a' → ¬ moves a o → a'.map T.view = a.map T.view ∨
    (T.modifies o = true ∧ ∃ m m', a = some m ∧ a' = some m' ∧
      (T.view m').modcount = ((T.view m).modcount + 1) % 2 ^ 32)

/-- The change does not move entries uncounted, and its count is not the one the cursor remembers. -/
def Undisturbed (moves : Option M → ω → Prop) (s : Iteration M κ) : IterOp ω → Prop
  | .next => True
  | .change o => ¬ moves s.map o ∧ (T.modifies o = true →
      ∀ m ∈ s.map, ∀ c ∈ s.cursor, ((T.view m).modcount + 1) % 2 ^ 32 ≠ c.modcount)

/-- A cursor whose count is the table's has given the entries it has passed. -/
def Synced (s : Iteration M κ) : Prop :=
  match s.map.map T.view, s.cursor with
  | some t, some c => t.modcount = c.modcount → c.pos ≤ t.cap ∧ s.yielded = t.before c.pos
  | none, none => s.yielded = []
  | _, _ => False

variable {T} {s : Iteration M κ} {moves : Option M → ω → Prop} {a : Option M} {o : ω}

theorem synced_start (a : Option M) : T.Synced (T.start a) := by
  cases a with
  | none => rfl
  | some m => exact fun _ => ⟨Nat.zero_le _, rfl⟩

theorem Synced.change {a' : Option M} (h : T.Synced s) (hcounts : T.Counts moves)
    (hchange : T.change s.map o = some a') (hok : T.Undisturbed moves s (.change o)) :
    T.Synced { s with map := a' } := by
  obtain ⟨a, cursor, yielded⟩ := s
  rcases hcounts a o a' hchange hok.1 with hsame | ⟨hmod, m, m', rfl, rfl, hcount⟩
  · unfold Synced at h ⊢
    simpa only [hsame] using h
  · cases cursor with
    | none => exact h
    | some c =>
      intro heq
      exact absurd (hcount.symm.trans heq) (hok.2 hmod m rfl c rfl)

theorem Synced.next {s' : Iteration M κ} {out : CursorOut κ} (h : T.Synced s)
    (hstep : T.step s .next = some (s', out)) : T.Synced s' ∧ T.Right s' out := by
  obtain ⟨a, cursor, yielded⟩ := s
  cases a with
  | none =>
    cases cursor with
    | none =>
      cases hstep
      exact ⟨h, (show yielded = [] from h) ▸ .nil⟩
    | some c => exact h.elim
  | some m =>
    cases cursor with
    | none => exact h.elim
    | some c =>
      change (T.view m).modcount = c.modcount → c.pos ≤ (T.view m).cap ∧
        yielded = (T.view m).before c.pos at h
      simp only [step, Cursor.next, Option.some.injEq, Prod.mk.injEq] at hstep
      obtain ⟨rfl, rfl⟩ := hstep
      split
      · next hne => exact ⟨fun heq => absurd heq hne, trivial⟩
      · next heq =>
        rw [not_not] at heq
        obtain ⟨hpos, rfl⟩ := h heq
        have hscan := (T.view m).scan_pos ((T.view m).cap - c.pos) c.pos
        have hbefore := (T.view m).before_scan ((T.view m).cap - c.pos) c.pos
        rw [Nat.add_sub_cancel' hpos] at hscan
        generalize (T.view m).scan ((T.view m).cap - c.pos) c.pos = r at hscan hbefore
        obtain ⟨pos, found⟩ := r
        cases found with
        | none =>
          rw [Option.toList_none, append_nil] at hbefore
          refine ⟨fun _ => ⟨hscan.1, ?_⟩, ?_⟩
          · exact (append_nil _).trans hbefore.symm
          · show (_ ++ []).Perm ((T.view m).before (T.view m).cap)
            rw [append_nil, ← hbefore, hscan.2 rfl]
        | some k =>
          refine ⟨fun _ => ⟨hscan.1, hbefore.symm⟩, ?_⟩
          show (_ ++ [k]).Subperm ((T.view m).before (T.view m).cap)
          rw [show _ ++ [k] = _ from hbefore.symm]
          exact ((T.view m).before_sublist hscan.1).subperm

theorem yieldsOnce_of_undisturbed (hcounts : T.Counts moves) {ops : List (IterOp ω)}
    (h : OpsMeet T.step (T.Undisturbed moves) (T.start a) ops) : T.YieldsOnce a ops := by
  intro s outs hrun s' out hnext
  have hsynced : T.Synced s := runOps_keeps ?_ (synced_start a) h hrun
  · exact (hsynced.next hnext).2
  intro s op s' r hs hok hstep
  cases op with
  | next => exact (hs.next hstep).1
  | change o =>
    obtain ⟨a', hchange, heq⟩ := Option.map_eq_some_iff.mp hstep
    cases heq
    exact hs.change hcounts hchange hok

end Table

end Skjegg.Lib
