import Skjegg.Kobold.Imap
import Skjegg.Kobold.MapProbe
import Skjegg.Lib.TableCursor

/-!
# Iteration over maps

`kp_mapiter_new` and `kp_imapiter_new` start a cursor over the slots, and `kp_mapiter_next` and
`kp_imapiter_next` are its step.  An insertion and a deletion are counted; the rehash of `map_grow` and
`imap_grow` is not, and a reserve of a key that is present may make one.
-/

namespace Skjegg.Kobold

open Skjegg.Lib List

variable {M κ ι : Type}

/-- What is done to a map that is iterated over.  An assignment reserves the key, looks it up and stores. -/
inductive MapChange (ι : Type)
  | reserve (key : ι)
  | store (slot : Nat) (v : Bytes)
  | delete (key : ι)
  | lookup (key : ι)

/-- The calls on one kind of map, with what makes its reserve rehash and the keys it has. -/
structure MapKind (M κ ι : Type) where
  view : M → SlotView κ
  reserve : Option M → ι → Option M
  store : M → Nat → Bytes → M
  delete : M → ι → Option M
  get : Option M → ι → Option (Option Nat)
  full : M → Prop
  has : M → ι → Prop

namespace MapKind

def table (K : MapKind M κ ι) : Table M κ (MapChange ι) where
  view := K.view
  modifies
    | .reserve _ | .delete _ => true
    | _ => false
  change a
    | .reserve key => (K.reserve a key).map some
    | .store i v => some (a.map fun m => K.store m i v)
    | .delete key =>
        match a with
        | none => some none
        | some m => (K.delete m key).map some
    | .lookup key => (K.get a key).map fun _ => a

/-- The reserve makes the object, or rehashes for a key that is there. -/
def Moves (K : MapKind M κ ι) (a : Option M) : MapChange ι → Prop
  | .reserve key => ∀ m ∈ a, K.full m ∧ K.has m key
  | _ => False

def Counted (K : MapKind M κ ι) (m m' : M) : Prop :=
  K.view m' = K.view m ∨ (K.view m').modcount = ((K.view m).modcount + 1) % 2 ^ 32

theorem counts {K : MapKind M κ ι}
    (hreserve : ∀ m key m', K.reserve (some m) key = some m' → ¬(K.full m ∧ K.has m key) → K.Counted m m')
    (hdelete : ∀ m key m', K.delete m key = some m' → K.Counted m m')
    (hstore : ∀ m i v, K.view (K.store m i v) = K.view m) : K.table.Counts K.Moves := by
  have hcounted : ∀ {m m'}, K.Counted m m' → (some m').map K.view = (some m).map K.view ∨
      (true = true ∧ ∃ n n', some m = some n ∧ some m' = some n' ∧
        (K.view n').modcount = ((K.view n).modcount + 1) % 2 ^ 32) :=
    fun h => h.imp (congrArg some) fun hcount => ⟨rfl, _, _, rfl, rfl, hcount⟩
  intro a o a' h hmoves
  cases o with
  | reserve key =>
    obtain ⟨m', hm', rfl⟩ := Option.map_eq_some_iff.mp h
    cases a with
    | none => exact absurd nofun hmoves
    | some m => exact hcounted (hreserve m key m' hm' fun hm => hmoves fun n hn => Option.some.inj hn ▸ hm)
  | store i v =>
    cases h
    cases a with
    | none => exact .inl rfl
    | some m => exact .inl (congrArg some (hstore m i v))
  | delete key =>
    cases a with
    | none =>
      cases h
      exact .inl rfl
    | some m =>
      obtain ⟨m', hm', rfl⟩ := Option.map_eq_some_iff.mp h
      exact hcounted (hdelete m key m' hm')
  | lookup key =>
    obtain ⟨_, -, rfl⟩ := Option.map_eq_some_iff.mp h
    exact .inl rfl

end MapKind

def mapFull (count tombs cap : Nat) : Prop := (count + tombs + 1) * 4 ≥ cap * 3

/-- What holds at the start of a loop that may stop and is kept by its rounds holds at its end. -/
theorem foldlM_keeps {α β : Type} {f : β → α → Option β} {P : β → Prop}
    (hstep : ∀ b x b', P b → f b x = some b' → P b') {l : List α} {b b' : β} (h : P b)
    (hrun : l.foldlM f b = some b') : P b' := by
  induction l generalizing b with
  | nil => exact Option.some.inj hrun ▸ h
  | cons x l ih =>
    obtain ⟨mid, hmid, hrest⟩ := Option.bind_eq_some_iff.mp hrun
    exact ih (hstep b x mid h hmid) hrest

/-! ## String-keyed maps -/

section Strings

variable {σ : Strings} {m m' : KpMap} {key : Gptr} {elemsize : Nat}

def HasKey (σ : Strings) (m : KpMap) (key : Gptr) : Prop :=
  ∃ k ∈ m.keys, isLive k = true ∧ keyEq σ k key = true

/-- The string-keyed maps; a key comes with the strings there are when it is used. -/
def stringMaps (elemsize : Nat) : MapKind KpMap Gptr (Strings × Gptr) where
  view m := ⟨m.cap, fun i => (some (keyAt m i)).filter isLive, m.modcount⟩
  reserve a key := kpMapReserve key.1 a key.2 elemsize
  store m i v := { m with vals := m.vals.set i v }
  delete m key := kpMapDel key.1 m key.2
  get a key := kpMapGet key.1 a key.2
  full m := mapFull m.count m.tombs m.cap
  has m key := HasKey key.1 m key.2

theorem mem_keys_of_live {i : Nat} (h : isLive (keyAt m i) = true) : keyAt m i ∈ m.keys := by
  unfold keyAt at *
  by_cases hi : i < m.keys.length
  · rw [getD_eq_getElem _ _ hi]
    exact getElem_mem hi
  · rw [getD_eq_default _ _ (by omega)] at h
    cases h

theorem mapGrow_keeps {newcap : Nat} (h : mapGrow σ m newcap = some m') :
    m'.modcount = m.modcount ∧ ∀ k ∈ m'.keys, isLive k = true → k ∈ m.keys := by
  unfold mapGrow at h
  split at h
  · cases h
  next nk nv hloop =>
    cases h
    refine ⟨rfl, foldlM_keeps (P := fun b => ∀ k ∈ b.1, isLive k = true → k ∈ m.keys) ?_ ?_ hloop⟩
    · intro b i b' hb hstep
      unfold growStep at hstep
      simp only at hstep
      split at hstep
      · cases hstep
        exact hb
      next hlive =>
        split at hstep
        · cases hstep
        · cases hstep
          intro k hk
          rcases mem_or_eq_of_mem_set hk with hk | rfl
          · exact hb k hk
          · exact mem_keys_of_live
    · intro k hk hlive
      cases eq_of_mem_replicate hk
      cases hlive

theorem reserveLoop_counts {mask fuel i : Nat} {tomb : Option Nat}
    (h : reserveLoop σ m key mask fuel i tomb = some m') :
    (m' = m ∧ HasKey σ m key) ∨ m'.modcount = (m.modcount + 1) % 2 ^ 32 := by
  induction fuel generalizing i tomb with
  | zero => cases h
  | succ fuel ih =>
    simp only [reserveLoop] at h
    split at h
    · cases h
      exact .inr rfl
    next hempty =>
      split at h
      · exact ih h
      next htomb =>
        split at h
        next heq =>
          cases h
          have hlive : isLive (keyAt m i) = true := decide_eq_true ⟨hempty, htomb⟩
          exact .inl ⟨rfl, _, mem_keys_of_live hlive, hlive, heq⟩
        · exact ih h

theorem growForOne_keeps (h : growForOne σ m = some m') : m' = m ∨ (mapFull m.count m.tombs m.cap ∧
    m'.modcount = m.modcount ∧ ∀ k ∈ m'.keys, isLive k = true → k ∈ m.keys) := by
  unfold growForOne at h
  split at h
  next hcap => exact .inr ⟨by simp [mapFull, hcap], mapGrow_keeps h⟩
  next =>
    split at h
    next hfull => exact .inr ⟨hfull, mapGrow_keeps h⟩
    next => exact .inl (Option.some.inj h).symm

theorem stringMaps_counts (elemsize : Nat) :
    (stringMaps elemsize).table.Counts (stringMaps elemsize).Moves := by
  refine MapKind.counts ?_ ?_ fun _ _ _ => rfl
  · rintro m ⟨σ, key⟩ m' h hmoves
    simp only [stringMaps, kpMapReserve] at h
    split at h
    · cases h
    next grown hgrow =>
      rcases growForOne_keeps hgrow with rfl | ⟨hfull, hcount, hkeys⟩
      · exact (reserveLoop_counts h).imp_left fun hsame => by rw [hsame.1]; rfl
      · rcases reserveLoop_counts h with ⟨-, k, hk, hlive, heq⟩ | hbump
        -- the key would have been there before the table grew
        · exact absurd ⟨hfull, k, hkeys k hk hlive, hlive, heq⟩ hmoves
        · exact .inr (hbump.trans (by rw [hcount]; rfl))
  · rintro m ⟨σ, key⟩ m' h
    simp only [stringMaps, kpMapDel, mapDelInplace] at h
    split at h
    · cases h
    next deleted hdel =>
      cases h
      split at hdel <;> cases hdel
      · exact .inl rfl
      · exact .inr rfl

end Strings

/-! ## Ordinal-keyed maps -/

section Ordinals

variable {m m' : KpImap} {key : BitVec 64}

def ordinalMaps (elemsize : Nat) : MapKind KpImap (BitVec 64) (BitVec 64) where
  view m :=
    { cap := m.cap
      entry := fun i => match islotAt m i with
        | .live k => some k
        | _ => none
      modcount := m.modcount }
  reserve a key := kpImapReserve a key elemsize
  store m i v := { m with vals := m.vals.set i v }
  delete := kpImapDel
  get := kpImapGet
  full m := mapFull m.count m.tombs m.cap
  has m key := .live key ∈ m.slots

theorem mem_slots_of_live {i : Nat} (h : islotAt m i = .live key) : .live key ∈ m.slots := by
  unfold islotAt at h
  by_cases hi : i < m.slots.length
  · rw [getD_eq_getElem _ _ hi] at h
    exact h ▸ getElem_mem hi
  · rw [getD_eq_default _ _ (by omega)] at h
    cases h

theorem imapGrow_keeps {newcap : Nat} (h : imapGrow m newcap = some m') :
    m'.modcount = m.modcount ∧ ∀ k, .live k ∈ m'.slots → .live k ∈ m.slots := by
  unfold imapGrow at h
  split at h
  · cases h
  next ns nv hloop =>
    cases h
    refine ⟨rfl, foldlM_keeps (P := fun b => ∀ k, .live k ∈ b.1 → .live k ∈ m.slots) ?_ ?_ hloop⟩
    · intro b i b' hb hstep
      unfold igrowStep at hstep
      split at hstep
      next k' hlive =>
        simp only at hstep
        split at hstep
        · cases hstep
        · cases hstep
          intro k hk
          rcases mem_or_eq_of_mem_set hk with hk | heq
          · exact hb k hk
          · exact heq ▸ mem_slots_of_live hlive
      next =>
        cases hstep
        exact hb
    · intro k hk
      cases eq_of_mem_replicate hk

theorem ireserveLoop_counts {mask fuel i : Nat} {tomb : Option Nat}
    (h : ireserveLoop m key mask fuel i tomb = some m') :
    (m' = m ∧ .live key ∈ m.slots) ∨ m'.modcount = (m.modcount + 1) % 2 ^ 32 := by
  induction fuel generalizing i tomb with
  | zero => cases h
  | succ fuel ih =>
    rw [ireserveLoop] at h
    split at h
    · cases h
      exact .inr rfl
    · exact ih h
    next k hlive =>
      split at h
      next heq =>
        cases h
        exact .inl ⟨rfl, heq ▸ mem_slots_of_live hlive⟩
      · exact ih h

theorem igrowForOne_keeps (h : igrowForOne m = some m') : m' = m ∨ (mapFull m.count m.tombs m.cap ∧
    m'.modcount = m.modcount ∧ ∀ k, .live k ∈ m'.slots → .live k ∈ m.slots) := by
  unfold igrowForOne at h
  split at h
  next hcap => exact .inr ⟨by simp [mapFull, hcap], imapGrow_keeps h⟩
  next =>
    split at h
    next hfull => exact .inr ⟨hfull, imapGrow_keeps h⟩
    next => exact .inl (Option.some.inj h).symm

theorem ordinalMaps_counts (elemsize : Nat) :
    (ordinalMaps elemsize).table.Counts (ordinalMaps elemsize).Moves := by
  refine MapKind.counts ?_ ?_ fun _ _ _ => rfl
  · intro m key m' h hmoves
    simp only [ordinalMaps, kpImapReserve] at h
    split at h
    · cases h
    next grown hgrow =>
      rcases igrowForOne_keeps hgrow with rfl | ⟨hfull, hcount, hkeys⟩
      · exact (ireserveLoop_counts h).imp_left fun hsame => by rw [hsame.1]; rfl
      · rcases ireserveLoop_counts h with ⟨-, hlive⟩ | hbump
        · exact absurd ⟨hfull, hkeys key hlive⟩ hmoves
        · exact .inr (hbump.trans (by rw [hcount]; rfl))
  · intro m key m' h
    simp only [ordinalMaps, kpImapDel, imapDelInplace] at h
    split at h
    · cases h
    next deleted hdel =>
      cases h
      split at hdel <;> cases hdel
      · exact .inl rfl
      · exact .inr rfl

end Ordinals

/-- Five entries in eight slots: the next reserve rehashes. -/
def oneToFive : KpImap :=
  ⟨5, 5, 0, 8, 1, [.live 5, .empty, .empty, .empty, .live 1, .live 4, .live 3, .live 2],
    [[0], [], [], [], [0], [0], [0], [0]], 5⟩

end Skjegg.Kobold
