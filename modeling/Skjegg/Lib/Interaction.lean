import Mathlib.Tactic

/-!
# Programs that talk to an environment

A program returns, or asks its environment a question and goes on with the answer, whatever it is. A
protocol says, in a ghost state that follows the exchange, which questions the program may ask and
which answers an honest environment gives.
-/

namespace Skjegg.Lib

open List

variable {E : Type} {A : E → Type} {α β G : Type}

inductive Prog (E : Type) (A : E → Type) (α : Type) where
  | ret (a : α)
  | ask (e : E) (k : A e → Prog E A α)

variable {p : Prog E A α} {f : α → Prog E A β} {tr : List (Sigma A)}

namespace Prog

def bind : Prog E A α → (α → Prog E A β) → Prog E A β
  | ret a, f => f a
  | ask e k, f => ask e fun r => (k r).bind f

instance : Monad (Prog E A) where
  pure := ret
  bind := bind

theorem bind_assoc {γ : Type} (p : Prog E A α) (f : α → Prog E A β) (f' : β → Prog E A γ) :
    (p >>= f) >>= f' = p >>= fun a => f a >>= f' := by
  induction p with
  | ret a => rfl
  | ask e k ih => exact congrArg _ (funext ih)

def call (e : E) : Prog E A (A e) := ask e ret

/-- The program can return `a` after this exchange. -/
inductive Runs : Prog E A α → List (Sigma A) → α → Prop
  | ret (a : α) : Runs (ret a) [] a
  | ask (e : E) (k : A e → Prog E A α) (r : A e) {tr : List (Sigma A)} {a : α} :
      Runs (k r) tr a → Runs (ask e k) (⟨e, r⟩ :: tr) a

theorem exists_runs (hans : ∀ e, Nonempty (A e)) (p : Prog E A α) : ∃ tr a, Runs p tr a := by
  induction p with
  | ret a => exact ⟨[], a, .ret a⟩
  | ask e k ih =>
    obtain ⟨r⟩ := hans e
    obtain ⟨tr, a, h⟩ := ih r
    exact ⟨_, a, .ask e k r h⟩

theorem runs_bind {b : β}
    (h : Runs (p >>= f) tr b) : ∃ tr1 a tr2, Runs p tr1 a ∧ Runs (f a) tr2 b ∧ tr = tr1 ++ tr2 := by
  induction p generalizing tr with
  | ret a => exact ⟨[], a, tr, .ret a, h, rfl⟩
  | ask e k ih =>
    cases h with
    | ask _ _ r hrs =>
      obtain ⟨tr1, a, tr2, hp, hf, rfl⟩ := ih r hrs
      exact ⟨_, a, tr2, .ask e k r hp, hf, rfl⟩

theorem exists_runs_call (hans : ∀ e, Nonempty (A e)) (e : E) (k : A e → Prog E A α) :
    ∃ r tr a, Runs (call e >>= k) (⟨e, r⟩ :: tr) a := by
  obtain ⟨r⟩ := hans e
  obtain ⟨tr, a, h⟩ := exists_runs hans _
  exact ⟨r, tr, a, .ask e k r h⟩

/-- The run of a program in an environment that answers from a state of its own. -/
def runIn {σ : Type} (env : σ → (e : E) → A e × σ) : Prog E A α → σ → List (Sigma A) × α
  | ret a, _ => ([], a)
  | ask e k, s =>
    let (r, s') := env s e
    let (tr, a) := (k r).runIn env s'
    (⟨e, r⟩ :: tr, a)

def exec {σ : Type} (env : σ → (e : E) → A e × σ) : Prog E A α → σ → α × σ
  | ret a, s => (a, s)
  | ask e k, s => (k (env s e).1).exec env (env s e).2

theorem runs_runIn {σ : Type} (env : σ → (e : E) → A e × σ) (p : Prog E A α) (s : σ) :
    Runs p (p.runIn env s).1 (p.runIn env s).2 := by
  induction p generalizing s with
  | ret a => exact .ret a
  | ask e k ih => exact .ask e k _ (ih (env s e).1 (env s e).2)

/-! ### What every run returns -/

/-- Whatever the environment answers, the program returns in `Q`. -/
def Ensures (p : Prog E A α) (Q : α → Prop) : Prop := ∀ tr a, Runs p tr a → Q a

theorem ensures_pure {a : α} {Q : α → Prop} (h : Q a) : (pure a : Prog E A α).Ensures Q := by
  intro tr b hrun
  cases hrun
  exact h

theorem Ensures.bind {Q : α → Prop} {Q' : β → Prop}
    (hp : p.Ensures Q) (hf : ∀ a, Q a → (f a).Ensures Q') : (p >>= f).Ensures Q' := by
  intro tr b hrun
  obtain ⟨tr1, a, tr2, hfst, hrs, -⟩ := runs_bind hrun
  exact hf a (hp tr1 a hfst) tr2 b hrs

theorem Ensures.mono {Q Q' : α → Prop} (hp : p.Ensures Q) (h : ∀ a, Q a → Q' a) : p.Ensures Q' :=
  fun tr a hrun => h a (hp tr a hrun)

theorem Ensures.and {Q Q' : α → Prop} (hp : p.Ensures Q) (hp' : p.Ensures Q') :
    p.Ensures fun a => Q a ∧ Q' a :=
  fun tr a hrun => ⟨hp tr a hrun, hp' tr a hrun⟩

theorem ensures_true (p : Prog E A α) : p.Ensures fun _ => True := fun _ _ _ => trivial

theorem ensures_bind_any {Q : β → Prop} (hf : ∀ a, (f a).Ensures Q) : (p >>= f).Ensures Q :=
  (ensures_true p).bind fun a _ => hf a

theorem ensures_foldlM {γ : Type} {Q : β → Prop} {f : β → γ → Prog E A β} {l : List γ}
    (hf : ∀ b, ∀ c ∈ l, Q b → (f b c).Ensures Q) {b : β} (h : Q b) : (l.foldlM f b).Ensures Q := by
  induction l generalizing b with
  | nil => exact ensures_pure h
  | cons c l ih =>
    refine (hf b c mem_cons_self h).bind fun b' hb' => ?_
    exact ih (fun b c hc => hf b c (mem_cons_of_mem _ hc)) hb'

end Prog

/-! ## Protocols -/

/-- What a program may ask and what it may be answered, in a ghost state of the exchange. -/
structure Protocol (E : Type) (A : E → Type) (G : Type) where
  may : G → E → Prop
  honest : G → (e : E) → A e → Prop
  next : G → (e : E) → A e → G

variable {ok : E → Prop}

namespace Protocol

def replay (P : Protocol E A G) : G → List (Sigma A) → G
  | g, [] => g
  | g, ⟨e, r⟩ :: tr => P.replay (P.next g e r) tr

def Honest (P : Protocol E A G) : G → List (Sigma A) → Prop
  | _, [] => True
  | g, ⟨e, r⟩ :: tr => P.honest g e r ∧ P.Honest (P.next g e r) tr

def Obeyed (P : Protocol E A G) : G → List (Sigma A) → Prop
  | _, [] => True
  | g, ⟨e, r⟩ :: tr => P.may g e ∧ P.Obeyed (P.next g e r) tr

instance (P : Protocol E A G) [∀ g e, Decidable (P.may g e)] (g : G) (tr : List (Sigma A)) :
    Decidable (P.Obeyed g tr) :=
  decideObeyed g tr
where
  decideObeyed : (g : G) → (tr : List (Sigma A)) → Decidable (P.Obeyed g tr)
    | _, [] => isTrue trivial
    | g, ⟨e, r⟩ :: tr => @instDecidableAnd _ _ _ (decideObeyed (P.next g e r) tr)

instance (P : Protocol E A G) [∀ g e r, Decidable (P.honest g e r)] (g : G) (tr : List (Sigma A)) :
    Decidable (P.Honest g tr) :=
  decideHonest g tr
where
  decideHonest : (g : G) → (tr : List (Sigma A)) → Decidable (P.Honest g tr)
    | _, [] => isTrue trivial
    | g, ⟨e, r⟩ :: tr => @instDecidableAnd _ _ _ (decideHonest (P.next g e r) tr)

variable {P : Protocol E A G} {g : G} {tr tr' : List (Sigma A)}

theorem replay_append : P.replay g (tr ++ tr') = P.replay (P.replay g tr) tr' := by
  induction tr generalizing g with
  | nil => rfl
  | cons ev tr ih => exact ih

theorem honest_append : P.Honest g (tr ++ tr') ↔ P.Honest g tr ∧ P.Honest (P.replay g tr) tr' := by
  induction tr generalizing g with
  | nil => exact (iff_of_eq (true_and _)).symm
  | cons ev tr ih => simp [Honest, replay, ih, and_assoc]

theorem obeyed_append : P.Obeyed g (tr ++ tr') ↔ P.Obeyed g tr ∧ P.Obeyed (P.replay g tr) tr' := by
  induction tr generalizing g with
  | nil => exact (iff_of_eq (true_and _)).symm
  | cons ev tr ih => simp [Obeyed, replay, ih, and_assoc]

/-- The protocol without a ghost state: `ok` of every question, and any answer. -/
def always (ok : E → Prop) : Protocol E A Unit where
  may _ e := ok e
  honest _ _ _ := True
  next _ _ _ := ()

theorem always_honest (tr : List (Sigma A)) : (always ok).Honest () tr := by
  induction tr with
  | nil => trivial
  | cons ev tr ih => exact ⟨trivial, ih⟩

theorem always_obeyed_iff : (always ok).Obeyed () tr ↔ ∀ ev ∈ tr, ok ev.1 := by
  induction tr with
  | nil => exact ⟨fun _ _ h => absurd h not_mem_nil, fun _ => trivial⟩
  | cons ev tr ih =>
    rw [forall_mem_cons]
    exact and_congr_right' ih

end Protocol

/-! ## Weakest preconditions -/

namespace Prog

variable {P : Protocol E A G} {g : G} {Q : α → G → Prop}

def wp (P : Protocol E A G) : Prog E A α → G → (α → G → Prop) → Prop
  | ret a, g, Q => Q a g
  | ask e k, g, Q => P.may g e ∧ ∀ r, P.honest g e r → (k r).wp P (P.next g e r) Q

@[simp] theorem wp_pure {a : α} :
    (pure a : Prog E A α).wp P g Q ↔ Q a g := Iff.rfl

@[simp] theorem wp_bind {Q : β → G → Prop} :
    (p >>= f).wp P g Q ↔ p.wp P g fun a g' => (f a).wp P g' Q := by
  induction p generalizing g with
  | ret a => rfl
  | ask e k ih => exact and_congr_right' (forall₂_congr fun r _ => ih r)

theorem wp_mono {Q Q' : α → G → Prop} (h : p.wp P g Q) (hQ : ∀ a g', Q a g' → Q' a g') : p.wp P g Q' := by
  induction p generalizing g with
  | ret a => exact hQ a g h
  | ask e k ih => exact ⟨h.1, fun r hr => ih r (h.2 r hr)⟩

theorem wp_then {Q' : β → G → Prop} (hp : p.wp P g Q)
    (hf : ∀ a g', Q a g' → (f a).wp P g' Q') : (p >>= f).wp P g Q' :=
  wp_bind.mpr (wp_mono hp hf)

theorem wp_sound {a : α}
    (h : p.wp P g Q) (hrun : Runs p tr a) (hhon : P.Honest g tr) :
    P.Obeyed g tr ∧ Q a (P.replay g tr) := by
  induction hrun generalizing g with
  | ret a => exact ⟨trivial, h⟩
  | ask e k r _ ih =>
    have hrs := ih (h.2 r hhon.1) hhon.2
    exact ⟨⟨h.1, hrs.1⟩, hrs.2⟩

theorem wp_always_iff (hans : ∀ e, Nonempty (A e)) {Q : α → Unit → Prop} :
    p.wp (Protocol.always ok) () Q ↔ ∀ tr a, Runs p tr a → (∀ ev ∈ tr, ok ev.1) ∧ Q a () := by
  constructor
  · intro h tr a hrun
    have hsnd := wp_sound h hrun (Protocol.always_honest tr)
    exact ⟨Protocol.always_obeyed_iff.mp hsnd.1, hsnd.2⟩
  intro h
  induction p with
  | ret a => exact (h [] a (.ret a)).2
  | ask e k ih =>
    constructor
    · -- some run of the continuation exists, and its exchange starts with this question
      obtain ⟨r⟩ := hans e
      obtain ⟨tr, a, hrun⟩ := exists_runs hans _
      exact (h _ a (.ask e k r hrun)).1 _ mem_cons_self
    intro r _
    apply ih r
    intro tr a hrun
    have hall := h _ a (.ask e k r hrun)
    exact ⟨fun ev hev => hall.1 ev (mem_cons_of_mem _ hev), hall.2⟩

theorem wp_always_bind_iff (hans : ∀ e, Nonempty (A e)) {Q : β → Unit → Prop} :
    (p >>= f).wp (Protocol.always ok) () Q ↔ p.wp (Protocol.always ok) () (fun _ _ => True) ∧
        ∀ tr a, Runs p tr a → (f a).wp (Protocol.always ok) () Q := by
  rw [wp_bind, wp_always_iff hans, wp_always_iff hans]
  exact ⟨fun h => ⟨fun tr a hrun => ⟨(h tr a hrun).1, trivial⟩, fun tr a hrun => (h tr a hrun).2⟩,
    fun h tr a hrun => ⟨(h.1 tr a hrun).1, h.2 tr a hrun⟩⟩

end Prog

/-! ## Sessions: one program after another on a shared state -/

section Sessions

variable {S O : Type}

/-- A session runs the step of each operation on the state the previous one left; every operation
meets `ok` there. -/
inductive Session (step : S → O → Prog E A S) (ok : S → O → Prop) :
    S → List O → List (Sigma A) → S → Prop
  | nil (s : S) : Session step ok s [] [] s
  | cons {s s' s'' : S} {o : O} {os : List O} {tr tr' : List (Sigma A)} :
      ok s o → Prog.Runs (step s o) tr s' → Session step ok s' os tr' s'' →
      Session step ok s (o :: os) (tr ++ tr') s''

variable {step : S → O → Prog E A S} {ok : S → O → Prop} {os : List O} {s s' : S}

theorem Session.keeps {P : Protocol E A G} {Inv : S → G → Prop}
    (hst : ∀ s o g, Inv s g → ok s o → (step s o).wp P g Inv) {g : G} (hrun : Session step ok s os tr s')
    (h : Inv s g) (hhon : P.Honest g tr) : P.Obeyed g tr ∧ Inv s' (P.replay g tr) := by
  induction hrun generalizing g with
  | nil s => exact ⟨trivial, h⟩
  | cons hok hruns _ ih =>
    rw [Protocol.honest_append] at hhon
    have hfst := Prog.wp_sound (hst _ _ g h hok) hruns hhon.1
    have hrs := ih hfst.2 hhon.2
    rw [Protocol.obeyed_append, Protocol.replay_append]
    exact ⟨⟨hfst.1, hrs.1⟩, hrs.2⟩

theorem Session.mono {ok' : S → O → Prop} (h : ∀ s o, ok s o → ok' s o)
    (hrun : Session step ok s os tr s') : Session step ok' s os tr s' := by
  induction hrun with
  | nil s => exact .nil s
  | cons hok hruns _ ih => exact .cons (h _ _ hok) hruns ih

theorem Session.invariant {I : S → Prop}
    (hst : ∀ s o, I s → ok s o → (step s o).Ensures I) (hrun : Session step ok s os tr s') (h : I s) :
    I s' := by
  induction hrun with
  | nil s => exact h
  | cons hok hruns _ ih => exact ih (hst _ _ h hok _ _ hruns)

def sessionIn (env : (e : E) → A e) (step : S → O → Prog E A S) : S → List O → S
  | s, [] => s
  | s, o :: os => sessionIn env step ((step s o).runIn (fun u e => (env e, u)) ()).2 os

theorem exists_session_sessionIn (env : (e : E) → A e) (step : S → O → Prog E A S) (s : S) (os : List O) :
    ∃ tr, Session step (fun _ _ => True) s os tr (sessionIn env step s os) := by
  induction os generalizing s with
  | nil => exact ⟨[], .nil s⟩
  | cons o os ih =>
    obtain ⟨tr, htr⟩ := ih ((step s o).runIn (fun u e => (env e, u)) ()).2
    exact ⟨_, .cons trivial (Prog.runs_runIn _ _ ()) htr⟩

end Sessions

/-! ## Loads from a buffer

A program that parses a buffer also loads bytes of it.  The loads are questions of their own, so a
protocol can bound them; what is loaded is the program's business. -/

/-- A load of `cnt` bytes from offset `off` of the buffer, or another question. -/
inductive Reading (H : Type) where
  | load (off cnt : Nat)
  | host (h : H)

/-- A load has no answer of its own. -/
@[reducible] def Reading.Ans {H : Type} (B : H → Type) : Reading H → Type
  | .load _ _ => Unit
  | .host h => B h

abbrev Reader (H : Type) (B : H → Type) (α : Type) := Prog (Reading H) (Reading.Ans B) α

section Reading

variable {H : Type} {B : H → Type}

def load (off cnt : Nat) : Reader H B Unit := Prog.call (Reading.load off cnt)

def host (h : H) : Reader H B (B h) := Prog.call (Reading.host h)

def loadEach : List Nat → Reader H B Unit
  | [] => pure ()
  | off :: offs => do
      load off 1
      loadEach offs

namespace Protocol

/-- The protocol of the other questions, with every load allowed. -/
def anyLoad (P : Protocol H B G) : Protocol (Reading H) (Reading.Ans B) G where
  may g
    | .load _ _ => True
    | .host h => P.may g h
  honest g
    | .load _ _, _ => True
    | .host h, r => P.honest g h r
  next g
    | .load _ _, _ => g
    | .host h, r => P.next g h r

theorem honest_anyLoad_always {ok : H → Prop} (tr : List (Sigma (Reading.Ans B))) :
    (always ok).anyLoad.Honest () tr := by
  induction tr with
  | nil => trivial
  | cons ev tr ih =>
    obtain ⟨e, r⟩ := ev
    cases e with
    | load | host => exact ⟨trivial, ih⟩

theorem host_of_obeyed {ok : H → Prop} {tr : List (Sigma (Reading.Ans B))}
    (h : (always ok).anyLoad.Obeyed () tr) {q : H} {r : B q} (hmem : ⟨.host q, r⟩ ∈ tr) : ok q := by
  induction tr with
  | nil => cases hmem
  | cons ev tr ih =>
    rcases mem_cons.mp hmem with rfl | hrs
    · exact h.1
    · exact ih h.2 hrs

end Protocol

def Reading.Within (lo hi : Nat) : Reading H → Prop
  | .load off cnt => lo ≤ off ∧ off + cnt ≤ hi
  | .host _ => True

variable {P : Protocol H B G} {g : G} {lo hi : Nat} {Q : Unit → G → Prop}

@[simp] theorem wp_load_anyLoad {off cnt : Nat} :
    (load off cnt : Reader H B Unit).wp P.anyLoad g Q ↔ Q () g :=
  ⟨fun h => h.2 () trivial, fun h => ⟨trivial, fun _ _ => h⟩⟩

@[simp] theorem wp_loadEach_anyLoad {offs : List Nat} :
    (loadEach offs : Reader H B Unit).wp P.anyLoad g Q ↔ Q () g := by
  induction offs with
  | nil => exact Prog.wp_pure
  | cons off offs ih => rw [loadEach, Prog.wp_bind, wp_load_anyLoad, ih]

@[simp] theorem wp_host_anyLoad {h : H} {Q : B h → G → Prop} :
    (host h : Reader H B (B h)).wp P.anyLoad g Q ↔
      P.may g h ∧ ∀ r, P.honest g h r → Q r (P.next g h r) := Iff.rfl

theorem wp_host_always {ok : H → Prop} {h : H} {Q : B h → Unit → Prop} :
    (host h : Reader H B (B h)).wp (Protocol.always ok).anyLoad () Q ↔ ok h ∧ ∀ r, Q r () :=
  and_congr_right' ⟨fun hQ r => hQ r trivial, fun hQ r _ => hQ r⟩

variable {Q : Unit → Unit → Prop}

@[simp] theorem wp_load_within {off cnt : Nat} :
    (load off cnt : Reader H B Unit).wp (.always (Reading.Within lo hi)) () Q ↔
      (lo ≤ off ∧ off + cnt ≤ hi) ∧ Q () () :=
  and_congr_right' ⟨fun h => h () trivial, fun h _ _ => h⟩

@[simp] theorem wp_host_within {h : H} {Q : B h → Unit → Prop} :
    (host h : Reader H B (B h)).wp (.always (Reading.Within lo hi)) () Q ↔ ∀ r, Q r () :=
  ⟨fun hw r => hw.2 r trivial, fun hQ => ⟨trivial, fun r _ => hQ r⟩⟩

@[simp] theorem wp_loadEach_within {offs : List Nat} :
    (loadEach offs : Reader H B Unit).wp (.always (Reading.Within lo hi)) () Q ↔
      (∀ off ∈ offs, lo ≤ off ∧ off < hi) ∧ Q () () := by
  induction offs with
  | nil => simp [loadEach]
  | cons off offs ih =>
    rw [loadEach, Prog.wp_bind, wp_load_within, ih, forall_mem_cons]
    exact and_assoc.symm

end Reading

/-! ## Walks that stop early

A loop over positions in order that goes past a position or stops there: what it comes to is what lies
behind positions it goes past. -/

section Walk

variable {pass good : Nat → Prop} {i n : Nat}

def WalkGood (pass good : Nat → Prop) (i n : Nat) : Prop :=
  ∀ k, i ≤ k → k < i + n → (∀ k', i ≤ k' → k' < k → pass k') → good k

@[simp] theorem walkGood_zero : WalkGood pass good i 0 := fun k hi hk _ => absurd hk (by omega)

theorem walkGood_succ :
    WalkGood pass good i (n + 1) ↔ good i ∧ (pass i → WalkGood pass good (i + 1) n) := by
  constructor
  · intro h
    constructor
    · exact h i (Nat.le_refl i) (by omega) fun k' hi hk => absurd hk (by omega)
    intro hps k hi hk hbef
    apply h k (by omega) (by omega)
    intro k' hi' hk'
    rcases Nat.eq_or_lt_of_le hi' with rfl | hlt
    · exact hps
    · exact hbef k' hlt hk'
  · rintro ⟨hgd, hrs⟩ k hi hk hbef
    rcases Nat.eq_or_lt_of_le hi with rfl | hlt
    · exact hgd
    · apply hrs (hbef i (Nat.le_refl i) hlt) k hlt (by omega)
      intro k' hi' hk'
      exact hbef k' (by omega) hk'

theorem walkGood_shift :
    WalkGood pass good (i + 1) n ↔ WalkGood (fun k => pass (k + 1)) (fun k => good (k + 1)) i n := by
  induction n generalizing i with
  | zero => simp
  | succ n ih => rw [walkGood_succ, walkGood_succ, ih]

end Walk

end Skjegg.Lib
