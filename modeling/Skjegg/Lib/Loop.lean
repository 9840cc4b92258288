import Mathlib.Logic.Relation
import Mathlib.Data.Finset.Card
import Mathlib.Tactic

/-!
# Loops that may fail or not end

A loop ends well exactly when every step it comes to succeeds and it does not go on for ever. Where
one of finitely many positions determines what is left to do, that is coming back to a position.
-/

namespace Skjegg.Lib

/-! ## Computations that succeed -/

/-- A computation succeeds, with a value such as `Q` asks for. -/
def Succeeds {ε α : Type} (p : Except ε α) (Q : α → Prop) : Prop := ∃ a, p = .ok a ∧ Q a

section Succeeds

variable {ε α β : Type} {Q : α → Prop}

@[simp]
theorem succeeds_ok {a : α} : Succeeds (.ok a : Except ε α) Q ↔ Q a := by
  simp [Succeeds]

@[simp]
theorem succeeds_pure {a : α} : Succeeds (pure a : Except ε α) Q ↔ Q a := succeeds_ok

@[simp]
theorem succeeds_error {e : ε} : Succeeds (.error e : Except ε α) Q ↔ False := by
  simp [Succeeds]

variable {p : Except ε α} {f : α → Except ε β}

@[simp]
theorem succeeds_bind {Q : β → Prop} : Succeeds (p >>= f) Q ↔ Succeeds p fun a => Succeeds (f a) Q := by
  cases p with
  | error e =>
    show Succeeds (.error e) Q ↔ _
    simp
  | ok a =>
    show Succeeds (f a) Q ↔ _
    simp

@[simp]
theorem succeeds_map {f : α → β} {Q : β → Prop} : Succeeds (f <$> p) Q ↔ Succeeds p fun a => Q (f a) := by
  cases p with
  | error e =>
    show Succeeds (.error e) Q ↔ _
    simp
  | ok a =>
    show Succeeds (.ok (f a)) Q ↔ _
    simp

theorem succeeds_ite {c : Prop} [Decidable c] {p q : Except ε α} :
    Succeeds (if c then p else q) Q ↔ (c → Succeeds p Q) ∧ (¬c → Succeeds q Q) := by
  split <;> simp_all

theorem Succeeds.mono {R : α → Prop} (h : Succeeds p Q) (hQ : ∀ a, Q a → R a) : Succeeds p R := by
  obtain ⟨a, ha, hq⟩ := h
  exact ⟨a, ha, hQ a hq⟩

theorem Succeeds.bind {R : β → Prop} (h : Succeeds p Q)
    (hf : ∀ a, Q a → Succeeds (f a) R) : Succeeds (p >>= f) R :=
  succeeds_bind.mpr (h.mono hf)

theorem bind_eq_ok {b : β} : (p >>= f) = .ok b ↔ ∃ a, p = .ok a ∧ f a = .ok b := by
  cases p with
  | error e => exact ⟨nofun, nofun⟩
  | ok a => exact ⟨fun h => ⟨a, rfl, h⟩, fun ⟨_, ha, h⟩ => by cases ha; exact h⟩

variable {p : α → Except ε Bool} {l : List α}

theorem of_allM (h : l.allM p = .ok true) : ∀ a ∈ l, p a = .ok true := by
  induction l with
  | nil => exact nofun
  | cons b l ih =>
    obtain ⟨ok, hb, h⟩ := bind_eq_ok.mp h
    cases ok with
    | false => cases h
    | true => exact List.forall_mem_cons.mpr ⟨hb, ih h⟩

theorem succeeds_findM? (h : ∀ a ∈ l, Succeeds (p a) fun _ => True) :
    Succeeds (l.findM? p) fun o => ∀ a ∈ o, a ∈ l := by
  induction l with
  | nil => exact succeeds_pure.mpr nofun
  | cons b l ih =>
    refine (h b List.mem_cons_self).bind fun ok _ => ?_
    cases ok with
    | true => exact succeeds_pure.mpr fun a ha => by cases ha; exact List.mem_cons_self
    | false =>
      exact (ih fun a ha => h a (List.mem_cons_of_mem b ha)).mono fun o ho a ha =>
        List.mem_cons_of_mem b (ho a ha)

end Succeeds

/-! ## The loop -/

variable {ε σ : Type}

/-- A `while` loop, for at most so many turns. -/
def loopWhile (spent : ε) (running : σ → Bool) (step : σ → Except ε σ) : Nat → σ → Except ε σ
  | fuel, s =>
    if running s then
      match fuel with
      | 0 => .error spent
      | fuel + 1 => step s >>= loopWhile spent running step fuel
    else
      .ok s

variable {spent : ε} {running : σ → Bool} {step : σ → Except ε σ}

def Turn (running : σ → Bool) (step : σ → Except ε σ) (s t : σ) : Prop := running s = true ∧ step s = .ok t

def Ends (running : σ → Bool) (step : σ → Except ε σ) : Nat → σ → σ → Prop
  | 0, s, r => running s = false ∧ r = s
  | n + 1, s, r => ∃ t, Turn running step s t ∧ Ends running step n t r

variable {n : Nat} {s r : σ}

theorem Ends.head (h : Ends running step n s r) (hrun : running s = true) :
    ∃ m t, n = m + 1 ∧ Turn running step s t ∧ Ends running step m t r := by
  cases n with
  | zero => cases hrun.symm.trans h.1
  | succ m =>
    obtain ⟨t, htn, hen⟩ := h
    exact ⟨m, t, rfl, htn, hen⟩

theorem Ends.eq_of_not_running (h : Ends running step n s r) (hrun : running s = false) : r = s := by
  cases n with
  | zero => exact h.2
  | succ n =>
    obtain ⟨t, htn, -⟩ := h
    cases hrun.symm.trans htn.1

theorem loopWhile_ok_iff {fuel : Nat} :
    loopWhile spent running step fuel s = .ok r ↔ ∃ n ≤ fuel, Ends running step n s r := by
  induction fuel generalizing s with
  | zero =>
    rw [loopWhile]
    cases hrun : running s with
    | true => simp [Ends, hrun]
    | false => simp [Ends, hrun, eq_comm]
  | succ fuel ih =>
    rw [loopWhile]
    cases hrun : running s with
    | false =>
      constructor
      · intro h
        cases h
        exact ⟨0, Nat.zero_le _, hrun, rfl⟩
      · rintro ⟨n, -, hen⟩
        rw [hen.eq_of_not_running hrun]
        rfl
    | true =>
      constructor
      · intro h
        obtain ⟨t, hst, h⟩ := bind_eq_ok.mp h
        obtain ⟨n, hn, hen⟩ := ih.mp h
        exact ⟨n + 1, Nat.succ_le_succ hn, t, ⟨hrun, hst⟩, hen⟩
      · rintro ⟨n, hn, hen⟩
        obtain ⟨n, t, rfl, htn, hen⟩ := hen.head hrun
        exact bind_eq_ok.mpr ⟨t, htn.2, ih.mpr ⟨n, Nat.le_of_succ_le_succ hn, hen⟩⟩

/-! ## Positions -/

section Positions

open Relation

/-- From `p` on nothing is come to that is not in order, and nothing is come back to. -/
structure OnwardFrom (bound : Nat) (go : Nat → Nat → Prop) (ok : Nat → Prop) (p : Nat) : Prop where
  ok : ∀ q, ReflTransGen go p q → q < bound → ok q
  onward : ∀ q, ReflTransGen go p q → ¬TransGen go q q

/-- A loop that runs while it is at a position below `bound`, and goes from position to position, or to
none. -/
structure Positions (running : σ → Bool) (step : σ → Except ε σ) (I : σ → Prop) (pos : σ → Option Nat)
    (bound : Nat) (go : Nat → Nat → Prop) (ok : Nat → Prop) : Prop where
  below : ∀ p q, go p q → p < bound
  running_iff : ∀ s, I s → (running s = true ↔ ∃ p < bound, pos s = some p)
  turn : ∀ s t p, I s → pos s = some p → Turn running step s t → I t ∧ ok p ∧ ∀ q, pos t = some q ↔ go p q

variable {I : σ → Prop} {pos : σ → Option Nat} {bound p q : Nat} {go : Nat → Nat → Prop} {ok : Nat → Prop}

section

variable (h : Positions running step I pos bound go ok)

include h

theorem Positions.eq_of_bound_le (hp : bound ≤ p) (hpq : ReflTransGen go p q) : q = p := by
  rcases ReflTransGen.cases_head hpq with heq | ⟨x, hgo, -⟩
  · exact heq.symm
  · exact absurd (h.below _ _ hgo) (not_lt.mpr hp)

/-- A loop that ends has gone onward, and is where its way leads out of the bound. -/
theorem Positions.of_ends (hs : I s) (hen : Ends running step n s r) :
    I r ∧ (∀ p, pos s = some p → OnwardFrom bound go ok p) ∧
      ∀ q, pos r = some q ↔ bound ≤ q ∧ ∃ p, pos s = some p ∧ ReflTransGen go p q := by
  induction n generalizing s with
  | zero =>
    obtain ⟨hrun, rfl⟩ := hen
    have hout : ∀ p, pos r = some p → bound ≤ p := fun p hp => not_lt.mp fun hlt => by
      rw [(h.running_iff r hs).mpr ⟨p, hlt, hp⟩] at hrun
      cases hrun
    refine ⟨hs, fun p hp => ⟨fun q hpq hq => ?_, fun q hpq hcyc => ?_⟩, fun q => ⟨fun hq => ?_, ?_⟩⟩
    · exact absurd hq (not_lt.mpr (h.eq_of_bound_le (hout p hp) hpq ▸ hout p hp))
    · obtain ⟨x, hgo, -⟩ := TransGen.head'_iff.mp hcyc
      exact absurd (h.below _ _ hgo) (not_lt.mpr (h.eq_of_bound_le (hout p hp) hpq ▸ hout p hp))
    · exact ⟨hout q hq, q, hq, .refl⟩
    · rintro ⟨-, p, hp, hpq⟩
      rw [h.eq_of_bound_le (hout p hp) hpq, hp]
  | succ n ih =>
    obtain ⟨t, htn, hen⟩ := hen
    obtain ⟨p, hlt, hp⟩ := (h.running_iff s hs).mp htn.1
    obtain ⟨hI, hok, hgo⟩ := h.turn s t p hs hp htn
    obtain ⟨hr, hon, hend⟩ := ih hI hen
    simp only [hp, Option.some.injEq, forall_eq', exists_eq_left']
    refine ⟨hr, ⟨fun q hpq hq => ?_, fun q hpq hcyc => ?_⟩, fun q => ?_⟩
    · rcases ReflTransGen.cases_head hpq with rfl | ⟨x, hx, hxq⟩
      · exact hok
      · exact (hon x ((hgo x).mpr hx)).ok q hxq hq
    · -- a way back to `p` is one back to the place behind it
      rcases ReflTransGen.cases_head hpq with rfl | ⟨x, hx, hxq⟩
      · obtain ⟨x, hx, hxp⟩ := TransGen.head'_iff.mp hcyc
        exact (hon x ((hgo x).mpr hx)).onward p hxp hcyc
      · exact (hon x ((hgo x).mpr hx)).onward q hxq hcyc
    · rw [hend]
      refine and_congr_right fun hq => ⟨?_, fun hpq => ?_⟩
      · rintro ⟨x, hx, hxq⟩
        exact .head ((hgo x).mp hx) hxq
      · rcases ReflTransGen.cases_head hpq with rfl | ⟨x, hx, hxq⟩
        · exact absurd hlt (not_lt.mpr hq)
        · exact ⟨x, (hgo x).mpr hx, hxq⟩

/-- A loop whose steps succeed where all is in order ends if it goes onward, after at most as many turns as
there are positions. -/
theorem Positions.ends (hstep : ∀ s p, I s → pos s = some p → p < bound → ok p → ∃ t, step s = .ok t)
    (hs : I s) (hon : ∀ p, pos s = some p → OnwardFrom bound go ok p) :
    ∃ n ≤ bound, ∃ r, Ends running step n s r := by
  classical
  by_cases hrun : running s = true
  swap
  · exact ⟨0, Nat.zero_le _, s, Bool.eq_false_iff.mpr hrun, rfl⟩
  obtain ⟨p, hlt, hp⟩ := (h.running_iff s hs).mp hrun
  suffices hcount : ∃ n ≤ ((Finset.range bound).filter (ReflTransGen go p)).card, ∃ r,
      Ends running step n s r by
    obtain ⟨n, hn, hr⟩ := hcount
    exact ⟨n, hn.trans ((Finset.card_filter_le ..).trans (Finset.card_range _).le), hr⟩
  -- by induction on the number of positions that the way may yet come to
  induction hk : ((Finset.range bound).filter (ReflTransGen go p)).card using Nat.strong_induction_on
    generalizing s p with
  | h k ih =>
    obtain ⟨t, ht⟩ := hstep s p hs hp hlt ((hon p hp).ok p .refl hlt)
    obtain ⟨hI, -, hgo⟩ := h.turn s t p hs hp ⟨hrun, ht⟩
    have hmem : p ∈ (Finset.range bound).filter (ReflTransGen go p) := by simp [hlt, ReflTransGen.refl]
    by_cases hrun' : running t = true
    swap
    · exact ⟨1, hk ▸ Finset.card_pos.mpr ⟨p, hmem⟩, t, t, ⟨hrun, ht⟩, Bool.eq_false_iff.mpr hrun', rfl⟩
    obtain ⟨q, hlt', hq⟩ := (h.running_iff t hI).mp hrun'
    have hpq := (hgo q).mp hq
    have hfewer : (Finset.range bound).filter (ReflTransGen go q) ⊂
        (Finset.range bound).filter (ReflTransGen go p) := by
      have hsub := Finset.monotone_filter_right (Finset.range bound) fun x _ => ReflTransGen.head (c := x) hpq
      refine (Finset.ssubset_iff_of_subset hsub).mpr ⟨p, hmem, fun hqp => ?_⟩
      exact (hon p hp).onward p .refl (.head' hpq (Finset.mem_filter.mp hqp).2)
    have hcard := hk ▸ Finset.card_lt_card hfewer
    obtain ⟨n, hn, r, hen⟩ := ih _ hcard hI
      (fun x hx => by
        cases hq.symm.trans hx
        exact ⟨fun y hy => (hon p hp).ok y (.head hpq hy), fun y hy => (hon p hp).onward y (.head hpq hy)⟩)
      hrun' q hlt' hq rfl
    exact ⟨n + 1, hn.trans_lt hcard, r, t, ⟨hrun, ht⟩, hen⟩

end

end Positions

end Skjegg.Lib
