import Skjegg.Ld.Link

/-!
# What `collect_symbols` makes of the symbols of one name

The symbols that share the entry of a name are the first of that name, local or not, and all later
ones that are not local; the entry is what merging them in order gives.
-/

namespace Skjegg.Ld

open List Option

abbrev Occ := Nat × InputSym

/-- The symbols of the objects from number `oi` on. -/
def occurrences (oi : Nat) : List Object → List Occ
  | [] => []
  | obj :: objs => obj.syms.map (oi, ·) ++ occurrences (oi + 1) objs

def sharing (name : Text) (occs : List Occ) : List Occ :=
  match occs.filter (·.2.name = name) with
  | [] => []
  | o :: rest => o :: rest.filter (!·.2.isLocal)

def mergeOcc (g : Option Symbol) (o : Occ) : Except String (Option Symbol) :=
  match g with
  | none => .ok (some (newEntry o.1 o.2))
  | some g => (mergeSym o.1 o.2 g).map some

def entryOf (occs : List Occ) : Except String (Option Symbol) := occs.foldlM mergeOcc none

/-! ## Sharing -/

variable {name : Text} {o : Occ} {occs : List Occ} {e oi : Nat} {syms' : List Symbol} {g : Symbol}
  {objs : List Object}

theorem sharing_snoc_other (h : o.2.name ≠ name) (occs : List Occ) :
    sharing name (occs ++ [o]) = sharing name occs := by
  have hflt : (occs ++ [o]).filter (·.2.name = name) = occs.filter (·.2.name = name) := by
    rw [filter_append, filter_cons_of_neg (by simpa using h), filter_nil, append_nil]
  rw [sharing, hflt, sharing]

theorem sharing_eq_nil_iff : sharing name occs = [] ↔ ∀ o ∈ occs, o.2.name ≠ name := by
  have hnil : sharing name occs = [] ↔ occs.filter (·.2.name = name) = [] := by
    unfold sharing
    split
    · next h => rw [h]
    · next h => rw [h]; simp
  rw [hnil, filter_eq_nil_iff]
  simp

theorem sharing_snoc_first (h : sharing o.2.name occs = []) : sharing o.2.name (occs ++ [o]) = [o] := by
  have hno : occs.filter (·.2.name = o.2.name) = [] :=
    filter_eq_nil_iff.mpr fun o' ho' => by simpa using sharing_eq_nil_iff.mp h o' ho'
  have hflt : (occs ++ [o]).filter (·.2.name = o.2.name) = [o] := by
    rw [filter_append, hno, filter_cons_of_pos (by simp)]
    rfl
  rw [sharing, hflt]
  rfl

theorem sharing_snoc_later (h : sharing o.2.name occs ≠ []) :
    sharing o.2.name (occs ++ [o]) = sharing o.2.name occs ++ if o.2.isLocal then [] else [o] := by
  have hflt : (occs ++ [o]).filter (·.2.name = o.2.name) = occs.filter (·.2.name = o.2.name) ++ [o] := by
    rw [filter_append, filter_cons_of_pos (by simp)]
    rfl
  unfold sharing at h ⊢
  rw [hflt]
  cases hocc : occs.filter _ with
  | nil =>
    rw [hocc] at h
    exact absurd rfl h
  | cons o1 rest =>
    rw [cons_append]
    dsimp only
    cases hloc : o.2.isLocal <;> simp [hloc]

theorem sharing_snoc_isPrefix (name : Text) (occs : List Occ) (o : Occ) :
    sharing name occs <+: sharing name (occs ++ [o]) := by
  by_cases hnm : o.2.name = name
  · subst hnm
    by_cases hnil : sharing o.2.name occs = []
    · rw [hnil]
      exact nil_prefix
    · rw [sharing_snoc_later hnil]
      exact prefix_append ..
  · rw [sharing_snoc_other hnm]

theorem sharing_append_isPrefix (name : Text) (occs later : List Occ) :
    sharing name occs <+: sharing name (occs ++ later) := by
  induction later generalizing occs with
  | nil => rw [append_nil]
  | cons o later ih =>
    rw [append_cons]
    exact (sharing_snoc_isPrefix _ _ o).trans (ih _)

theorem entryOf_snoc (occs : List Occ) (o : Occ) :
    entryOf (occs ++ [o]) = entryOf occs >>= fun g => mergeOcc g o := by
  simp [entryOf]

theorem entryOf_error_mono {occs' : List Occ} (h : occs <+: occs') {e : String}
    (herr : entryOf occs = .error e) : entryOf occs' = .error e := by
  obtain ⟨-, rfl⟩ := h
  rw [entryOf, foldlM_append, ← entryOf, herr]
  rfl

variable {syms : List Symbol}

/-! ## The table -/

theorem symFind_eq_some_iff : symFind syms name = some e ↔
      ∃ h : e < syms.length, syms[e].name = name ∧ ∀ j (hj : j < e), syms[j].name ≠ name := by
  unfold symFind
  rw [findIdx?_eq_some_iff_getElem]
  simp

theorem symFind_snoc (syms : List Symbol) (g : Symbol) (name : Text) : symFind (syms ++ [g]) name =
      (symFind syms name).or (if g.name = name then some syms.length else none) := by
  unfold symFind
  by_cases h : g.name = name <;> simp [h]

theorem symFind_congr (h : syms.map Symbol.name = syms'.map Symbol.name) (name : Text) :
    symFind syms name = symFind syms' name := by
  have hmap : ∀ l, symFind l name = (l.map Symbol.name).findIdx? (· = name) := by
    intro l
    rw [findIdx?_map]
    rfl
  rw [hmap, hmap, h]

theorem map_name_set (hnm : ∀ h : e < syms.length, g.name = syms[e].name) :
    (syms.set e g).map Symbol.name = syms.map Symbol.name := by
  rw [map_set]
  by_cases he : e < syms.length
  · rw [hnm he]
    have he' : e < (syms.map Symbol.name).length := by rwa [length_map]
    have hsf : (syms.map Symbol.name).set e (syms.map Symbol.name)[e] = _ := set_getElem_self he'
    rwa [getElem_map] at hsf
  · exact set_eq_of_length_le (by simpa using he)

/-- The entry a name is known by. -/
def lookup (syms : List Symbol) (name : Text) : Option Symbol := (symFind syms name).bind (syms[·]?)

theorem lookup_of_symFind (h : symFind syms name = some e) : lookup syms name = syms[e]? := by
  rw [lookup, h]
  rfl

theorem lookup_eq_none_iff : lookup syms name = none ↔ symFind syms name = none := by
  cases h : symFind _ _ with
  | none => simp [lookup, h]
  | some e =>
    obtain ⟨he, -⟩ := symFind_eq_some_iff.mp h
    simp [lookup_of_symFind h, he]

theorem lookup_snoc (syms : List Symbol) (g : Symbol) (name : Text) :
    lookup (syms ++ [g]) name = (lookup syms name).or (if g.name = name then some g else none) := by
  rw [lookup, symFind_snoc]
  cases h : symFind _ _ with
  | none =>
    rw [lookup_eq_none_iff.mpr h]
    split <;> simp
  | some e =>
    obtain ⟨he, -⟩ := symFind_eq_some_iff.mp h
    rw [lookup_of_symFind h]
    simp [getElem?_append_left he, getElem?_eq_getElem he]

theorem lookup_set (hfd : symFind syms name = some e) (hnm : g.name = name) (other : Text) :
    lookup (syms.set e g) other = if other = name then some g else lookup syms other := by
  obtain ⟨he, hat, -⟩ := symFind_eq_some_iff.mp hfd
  have hnms : (syms.set e g).map Symbol.name = syms.map Symbol.name :=
    map_name_set fun _ => hnm.trans hat.symm
  rw [lookup, symFind_congr hnms]
  split
  · next h =>
    rw [h, hfd]
    simp [he]
  rename_i h
  refine bind_congr fun j hj => ?_
  obtain ⟨hj, hjname, -⟩ := symFind_eq_some_iff.mp hj
  rw [getElem?_set_ne]
  rintro rfl
  exact h (hjname.symm.trans hat)

/-- The symbols read so far, each with its place in the table. -/
structure Collected (pairs : List (Occ × Nat)) (syms : List Symbol) : Prop where
  bound : ∀ q ∈ pairs, q.2 < syms.length
  entry : ∀ name, entryOf (sharing name (pairs.map Prod.fst)) = .ok (lookup syms name)
  place : ∀ name e, symFind syms name = some e →
    (pairs.filter (·.2 = e)).map Prod.fst = sharing name (pairs.map Prod.fst)
  known : ∀ q ∈ pairs, q.1.2.isLocal = false → symFind syms q.1.2.name = some q.2

theorem Collected.nil : Collected [] [] where
  bound := fun _ hq => absurd hq not_mem_nil
  entry := fun _ => rfl
  place := fun _ _ h => nomatch h
  known := fun _ hq => absurd hq not_mem_nil

theorem entryOf_eq_none_iff : entryOf occs = .ok none ↔ occs = [] := by
  constructor
  · intro h
    rcases eq_nil_or_concat occs with hnil | ⟨occs', o, rfl⟩
    · exact hnil
    rw [concat_eq_append, entryOf_snoc] at h
    obtain ⟨g, -, hg⟩ := step_ok h
    cases g with
    | none => cases hg
    | some g => cases hmg : mergeSym o.1 o.2 g <;> simp [mergeOcc, hmg, Except.map] at hg
  · rintro rfl
    rfl

theorem mergeSym_name {isym : InputSym} {g' : Symbol}
    (h : mergeSym oi isym g = .ok g') : g'.name = g.name := by
  unfold mergeSym at h
  split_ifs at h <;> cases h <;> rfl

variable {pairs : List (Occ × Nat)} {syms : List Symbol}

theorem Collected.sharing_eq_nil_iff (h : Collected pairs syms) (name : Text) :
    sharing name (pairs.map Prod.fst) = [] ↔ symFind syms name = none := by
  rw [← lookup_eq_none_iff, ← entryOf_eq_none_iff, h.entry, Except.ok.injEq]

theorem filter_snoc_place {gi : Nat} (h : gi ≠ e) :
    (pairs ++ [(o, gi)]).filter (·.2 = e) = pairs.filter (·.2 = e) := by
  rw [filter_append, filter_cons_of_neg (by simpa using h), filter_nil, append_nil]

section

variable (h : Collected pairs syms)

include h

theorem Collected.add (hnew : o.2.isLocal = true ∨ symFind syms o.2.name = none) :
    Collected (pairs ++ [(o, syms.length)]) (syms ++ [newEntry o.1 o.2]) := by
  have hmap : (pairs ++ [(o, syms.length)]).map Prod.fst = pairs.map Prod.fst ++ [o] := by
    rw [map_append]
    rfl
  -- a name that is known already keeps those that share its entry
  have hkp : ∀ name, symFind syms name ≠ none →
      sharing name (pairs.map Prod.fst ++ [o]) = sharing name (pairs.map Prod.fst) := by
    intro name hkn
    by_cases hnm : o.2.name = name
    · subst hnm
      have hloc : o.2.isLocal = true := hnew.resolve_right hkn
      rw [sharing_snoc_later (mt (h.sharing_eq_nil_iff _).mp hkn), hloc]
      exact append_nil _
    · exact sharing_snoc_other hnm _
  refine ⟨fun q hq => ?_, fun name => ?_, fun name e he => ?_, fun q hq hglb => ?_⟩
  · rw [length_append]
    rcases mem_append.mp hq with hq | hq
    · exact Nat.lt_succ_of_lt (h.bound q hq)
    · cases mem_singleton.mp hq
      exact Nat.lt_succ_self _
  · rw [hmap, lookup_snoc]
    cases hfd : symFind _ _ with
    | some e =>
      have hkn : symFind syms name ≠ none := by rw [hfd]; exact some_ne_none e
      rw [hkp _ hkn, h.entry]
      cases hlook : lookup _ _ with
      | none => exact absurd (lookup_eq_none_iff.mp hlook) hkn
      | some g => rfl
    | none =>
      rw [lookup_eq_none_iff.mpr hfd, none_or]
      by_cases hnm : o.2.name = name
      · subst hnm
        rw [sharing_snoc_first ((h.sharing_eq_nil_iff _).mpr hfd)]
        exact congrArg Except.ok (if_pos rfl).symm
      · rw [sharing_snoc_other hnm, (h.sharing_eq_nil_iff _).mpr hfd]
        exact congrArg Except.ok (if_neg hnm).symm
  · rw [hmap]
    rw [symFind_snoc] at he
    cases hfd : symFind _ _ with
    | some e' =>
      have hkn : symFind syms name ≠ none := by rw [hfd]; exact some_ne_none e'
      rw [hfd] at he
      cases he
      obtain ⟨hlt, -⟩ := symFind_eq_some_iff.mp hfd
      rw [filter_snoc_place (Nat.ne_of_gt hlt), hkp _ hkn, h.place _ _ hfd]
    | none =>
      rw [hfd, none_or] at he
      split at he
      · next hnm =>
        cases he
        have hot : pairs.filter (·.2 = syms.length) = [] :=
          filter_eq_nil_iff.mpr fun q hq => by
            simpa using Nat.ne_of_lt (h.bound q hq)
        have hnm : o.2.name = name := hnm
        subst hnm
        rw [sharing_snoc_first ((h.sharing_eq_nil_iff _).mpr hfd), filter_append, hot]
        simp
      · cases he
  · rw [symFind_snoc]
    rcases mem_append.mp hq with hq | hq
    · rw [h.known q hq hglb]
      rfl
    · cases mem_singleton.mp hq
      rw [hnew.resolve_left (by rw [hglb]; exact Bool.false_ne_true)]
      exact if_pos rfl

theorem Collected.merge (hloc : o.2.isLocal = false) (hfd : symFind syms o.2.name = some e)
    (hmg : mergeSym o.1 o.2 (syms.getD e default) = .ok g) :
    Collected (pairs ++ [(o, e)]) (syms.set e g) := by
  obtain ⟨he, hat, -⟩ := symFind_eq_some_iff.mp hfd
  have hget : syms.getD e default = syms[e] := by simp [he]
  rw [hget] at hmg
  have hnm : g.name = o.2.name := (mergeSym_name hmg).trans hat
  have hnms : (syms.set e g).map Symbol.name = syms.map Symbol.name :=
    map_name_set fun _ => hnm.trans hat.symm
  have hmap : (pairs ++ [(o, e)]).map Prod.fst = pairs.map Prod.fst ++ [o] := by
    rw [map_append]
    rfl
  have hkn : sharing o.2.name (pairs.map Prod.fst) ≠ [] := by
    rw [ne_eq, h.sharing_eq_nil_iff, hfd]
    exact some_ne_none e
  have hshr : sharing o.2.name (pairs.map Prod.fst ++ [o]) =
      sharing o.2.name (pairs.map Prod.fst) ++ [o] := by
    rw [sharing_snoc_later hkn, hloc]
    rfl
  refine ⟨fun q hq => ?_, fun name => ?_, fun name e' he' => ?_, fun q hq hglb => ?_⟩
  · rw [length_set]
    rcases mem_append.mp hq with hq | hq
    · exact h.bound q hq
    · cases mem_singleton.mp hq
      exact he
  · rw [hmap, lookup_set hfd hnm]
    split
    · next heq =>
      subst heq
      rw [hshr, entryOf_snoc, h.entry, lookup_of_symFind hfd, getElem?_eq_getElem he]
      show (mergeSym o.1 o.2 syms[e]).map some = _
      rw [hmg]
      rfl
    · next hne => rw [sharing_snoc_other (Ne.symm hne), h.entry]
  · rw [hmap]
    rw [symFind_congr hnms] at he'
    by_cases heq : o.2.name = name
    · subst heq
      rw [hfd] at he'
      cases he'
      rw [hshr, ← h.place _ _ hfd, filter_append]
      simp
    · obtain ⟨_, hat', -⟩ := symFind_eq_some_iff.mp he'
      have hne : e ≠ e' := by
        rintro rfl
        exact heq (hat.symm.trans hat')
      rw [filter_snoc_place hne, sharing_snoc_other heq]
      exact h.place _ e' he'
  · rw [symFind_congr hnms]
    rcases mem_append.mp hq with hq | hq
    · exact h.known q hq hglb
    · cases mem_singleton.mp hq
      exact hfd

/-! ## The loops -/

theorem collectSym_ok {gi : Nat}
    (hrun : collectSym o.1 syms o.2 = .ok (syms', gi)) : Collected (pairs ++ [(o, gi)]) syms' := by
  unfold collectSym at hrun
  split at hrun
  · next hloc =>
    cases hrun
    exact h.add (.inl hloc)
  rename_i hloc
  split at hrun
  · next e hfd =>
    obtain ⟨g, hmg, hrun⟩ := step_ok hrun
    cases hrun
    exact h.merge (Bool.eq_false_iff.mpr hloc) hfd hmg
  · next hfd =>
    cases hrun
    exact h.add (.inr hfd)

theorem collectSym_error {e : String} (hrun : collectSym o.1 syms o.2 = .error e) :
    entryOf (sharing o.2.name (pairs.map Prod.fst ++ [o])) = .error e := by
  unfold collectSym at hrun
  split at hrun
  · cases hrun
  rename_i hloc
  split at hrun
  · next i hfd =>
    obtain ⟨hi, -⟩ := symFind_eq_some_iff.mp hfd
    have hget : syms.getD i default = syms[i] := by simp [hi]
    have hkn : sharing o.2.name (pairs.map Prod.fst) ≠ [] := by
      rw [ne_eq, h.sharing_eq_nil_iff, hfd]
      exact some_ne_none i
    rw [hget] at hrun
    rw [sharing_snoc_later hkn, if_neg hloc, entryOf_snoc, h.entry, lookup_of_symFind hfd,
      getElem?_eq_getElem hi]
    show (mergeSym o.1 o.2 syms[i]).map some = _
    cases hmg : mergeSym o.1 o.2 syms[i] with
    | error e' =>
      rw [hmg] at hrun
      cases hrun
      rfl
    | ok g =>
      rw [hmg] at hrun
      cases hrun
  · cases hrun

theorem collectSyms_ok {isyms : List InputSym} {symMap : List Nat}
    (hrun : collectSyms oi syms isyms = .ok (syms', symMap)) :
    symMap.length = isyms.length ∧ Collected (pairs ++ (isyms.map (oi, ·)).zip symMap) syms' := by
  induction isyms generalizing pairs syms symMap with
  | nil =>
    cases hrun
    exact ⟨rfl, by simpa using h⟩
  | cons isym isyms ih =>
    obtain ⟨⟨syms1, gi⟩, hfst, hrun⟩ := step_ok hrun
    obtain ⟨⟨syms2, symMap2⟩, hrs, hrun⟩ := step_ok hrun
    cases hrun
    obtain ⟨hlen, hrs⟩ := ih (collectSym_ok (o := (oi, isym)) h hfst) hrs
    refine ⟨congrArg _ hlen, ?_⟩
    rwa [← append_cons] at hrs

theorem collectSyms_error {isyms : List InputSym} {e : String}
    (hrun : collectSyms oi syms isyms = .error e) :
    ∃ name, entryOf (sharing name (pairs.map Prod.fst ++ isyms.map (oi, ·))) = .error e := by
  induction isyms generalizing pairs syms with
  | nil => cases hrun
  | cons isym isyms ih =>
    rcases step_error hrun with hfst | ⟨⟨syms1, gi⟩, hfst, hrun⟩
    · refine ⟨isym.name, ?_⟩
      have herr := collectSym_error (o := (oi, isym)) h hfst
      rw [map_cons, append_cons]
      exact entryOf_error_mono (sharing_append_isPrefix _ _ _) herr
    rcases step_error hrun with hrs | ⟨_, _, hrun⟩
    · obtain ⟨name, hnm⟩ := ih (collectSym_ok (o := (oi, isym)) h hfst) hrs
      refine ⟨name, ?_⟩
      rwa [map_append, map_singleton, ← append_cons] at hnm
    · cases hrun

end

def places (oi : Nat) : List Object → List (Occ × Nat)
  | [] => []
  | obj :: objs => (obj.syms.map (oi, ·)).zip obj.symMap ++ places (oi + 1) objs

def Mapped (objs : List Object) : Prop := ∀ obj ∈ objs, obj.symMap.length = obj.syms.length

theorem places_map_fst (h : Mapped objs) (oi : Nat) :
    (places oi objs).map Prod.fst = occurrences oi objs := by
  induction objs generalizing oi with
  | nil => rfl
  | cons obj objs ih =>
    obtain ⟨hobj, hobjs⟩ := forall_mem_cons.mp h
    rw [places, occurrences, map_append, ih hobjs, map_fst_zip]
    rw [length_map, hobj]

theorem collectSymbols_ok (h : Collected pairs syms) {objs' : List Object}
    (hrun : collectSymbols oi syms objs = .ok (syms', objs')) :
    Mapped objs' ∧ occurrences oi objs' = occurrences oi objs ∧
      Collected (pairs ++ places oi objs') syms' := by
  induction objs generalizing pairs syms oi objs' with
  | nil =>
    cases hrun
    refine ⟨fun _ hobj => absurd hobj not_mem_nil, rfl, ?_⟩
    rwa [places, append_nil]
  | cons obj objs ih =>
    obtain ⟨⟨syms1, symMap⟩, hfst, hrun⟩ := step_ok hrun
    obtain ⟨⟨syms2, objs2⟩, hrs, hrun⟩ := step_ok hrun
    cases hrun
    obtain ⟨hlen, hfst⟩ := collectSyms_ok h hfst
    obtain ⟨hmapped, hoccs, hrs⟩ := ih hfst hrs
    refine ⟨forall_mem_cons.mpr ⟨hlen, hmapped⟩, ?_, ?_⟩
    · rw [occurrences, occurrences, hoccs]
    · rwa [append_assoc] at hrs

theorem collectSymbols_error (h : Collected pairs syms) {e : String}
    (hrun : collectSymbols oi syms objs = .error e) :
    ∃ name, entryOf (sharing name (pairs.map Prod.fst ++ occurrences oi objs)) = .error e := by
  induction objs generalizing pairs syms oi with
  | nil => cases hrun
  | cons obj objs ih =>
    rcases step_error hrun with hfst | ⟨⟨syms1, symMap⟩, hfst, hrun⟩
    · obtain ⟨name, hnm⟩ := collectSyms_error h hfst
      refine ⟨name, ?_⟩
      rw [occurrences, ← append_assoc]
      exact entryOf_error_mono (sharing_append_isPrefix _ _ _) hnm
    rcases step_error hrun with hrs | ⟨_, _, hrun⟩
    · obtain ⟨hlen, hfst⟩ := collectSyms_ok h hfst
      obtain ⟨name, hnm⟩ := ih hfst hrs
      refine ⟨name, ?_⟩
      rw [map_append, map_fst_zip (by rw [length_map, hlen]), append_assoc] at hnm
      exact hnm
    · cases hrun

end Skjegg.Ld
