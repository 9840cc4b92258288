import Skjegg.Ld.Collect
import Skjegg.Ld.ScriptAssigns

/-!
# What a name resolves to

A reference should resolve to the strong definition, without one to the first weak definition, and to
zero when all references are weak. The linker keeps the last address written to the entry: first by
the script's assignments, then by every definition that shares the entry, chosen or not.
-/

namespace Skjegg.Ld

open List

/-! ## The entry of the symbols that share it -/

def defs (occs : List Occ) : List Occ := occs.filter (·.2.isDef)

def strongs (occs : List Occ) : List Occ := occs.filter fun o => o.2.isDef && !o.2.isWeak

/-- How far the symbols that share an entry have settled it. -/
inductive Merged (occs : List Occ) (g : Symbol) : Prop
  | undefined (first : Occ) (hfirst : occs.head? = some first) (hdefs : defs occs = [])
      (defined : g.defined = false) (value : g.value = first.2.value)
      (weak : g.weak = occs.all (·.2.isWeak))
  | weakly (o : Occ) (hstrongs : strongs occs = []) (hdefs : (defs occs).head? = some o)
      (defined : g.defined = true) (value : g.value = o.2.value) (weak : g.weak = true)
  | strongly (o : Occ) (hstrongs : strongs occs = [o]) (defined : g.defined = true)
      (value : g.value = o.2.value) (weak : g.weak = false)

theorem strongs_eq_filter_defs (occs : List Occ) : strongs occs = (defs occs).filter (!·.2.isWeak) := by
  rw [defs, filter_filter, strongs]
  congr 1
  funext o
  exact Bool.and_comm ..

theorem merged_newEntry (o : Occ) : Merged [o] (newEntry o.1 o.2) := by
  cases hdef : o.2.isDef with
  | false =>
    refine .undefined o rfl ?_ hdef rfl ?_
    · simp [defs, hdef]
    · simp [newEntry]
  | true =>
    cases hwk : o.2.isWeak with
    | true =>
      refine .weakly o ?_ ?_ hdef rfl hwk
      · simp [strongs, hwk]
      · simp [defs, hdef]
    | false =>
      refine .strongly o ?_ hdef rfl hwk
      simp [strongs, hdef, hwk]

theorem defs_snoc (occs : List Occ) (o : Occ) :
    defs (occs ++ [o]) = defs occs ++ if o.2.isDef then [o] else [] := by
  rw [defs, filter_append, ← defs, filter_singleton, cond_eq_ite]

theorem strongs_snoc (occs : List Occ) (o : Occ) :
    strongs (occs ++ [o]) = strongs occs ++ if o.2.isDef && !o.2.isWeak then [o] else [] := by
  rw [strongs, filter_append, ← strongs, filter_singleton, cond_eq_ite]

variable {occs : List Occ} {g g' : Symbol} {o : Occ} {name : Text} {ld ld' : Linker} {syms syms' : List Symbol}

theorem Merged.snoc (h : Merged occs g)
    (hmg : mergeSym o.1 o.2 g = .ok g') : Merged (occs ++ [o]) g' := by
  have hhd : ∀ {l : List Occ} {first : Occ} (l' : List Occ), l.head? = some first →
      (l ++ l').head? = some first := by
    intro l first l' hfst
    rw [head?_append, hfst]
    rfl
  cases h with
  | undefined first hfst hdf defined value weak =>
    have hstr : strongs occs = [] := by
      rw [strongs_eq_filter_defs, hdf]
      rfl
    cases hdef : o.2.isDef <;> cases hwk : o.2.isWeak <;>
      simp only [mergeSym, hdef, hwk, defined, Bool.false_eq_true, ↓reduceIte] at hmg <;> cases hmg
    · refine .undefined _ (hhd _ hfst) ?_ rfl value ?_
      · simp [defs_snoc, hdf, hdef]
      · simp [hwk]
    · refine .undefined _ (hhd _ hfst) ?_ defined value ?_
      · simp [defs_snoc, hdf, hdef]
      · simp [weak, hwk]
    · exact .strongly o (by simp [strongs_snoc, hstr, hdef, hwk]) rfl rfl rfl
    · refine .weakly o ?_ ?_ rfl rfl rfl
      · simp [strongs_snoc, hstr, hwk]
      · simp [defs_snoc, hdf, hdef]
  | weakly o' hstr hdf defined value weak =>
    cases hdef : o.2.isDef <;> cases hwk : o.2.isWeak <;>
      simp only [mergeSym, hdef, hwk, defined, weak, Bool.false_eq_true, ↓reduceIte] at hmg <;>
      cases hmg
    case weakly.true.false.refl =>
      exact .strongly o (by simp [strongs_snoc, hstr, hdef, hwk]) rfl rfl rfl
    all_goals
      refine .weakly o' ?_ ?_ defined value weak
      · simp [strongs_snoc, hstr, hdef, hwk]
      · rw [defs_snoc]
        exact hhd _ hdf
  | strongly o' hstr defined value weak =>
    cases hdef : o.2.isDef <;> cases hwk : o.2.isWeak <;>
      simp only [mergeSym, hdef, hwk, defined, weak, Bool.false_eq_true, ↓reduceIte] at hmg <;>
      cases hmg
    all_goals exact .strongly o' (by simp [strongs_snoc, hstr, hdef, hwk]) defined value weak

theorem Merged.two_le_of_error {e : String} (h : Merged occs g) (hmg : mergeSym o.1 o.2 g = .error e) :
    2 ≤ (strongs (occs ++ [o])).length := by
  unfold mergeSym at hmg
  split_ifs at hmg with hdef hdefined hov hbt
  rw [Bool.and_eq_true, Bool.not_eq_true', Bool.not_eq_true'] at hbt
  cases h with
  | undefined _ _ _ defined =>
    rw [defined] at hdefined
    cases hdefined
  | weakly _ _ _ _ _ weak =>
    rw [weak] at hbt
    cases hbt.1
  | strongly o' hstr =>
    rw [strongs_snoc, hstr, hdef, hbt.2]
    exact le_refl 2

theorem newEntry_objIdx (o : Occ) : 0 ≤ (newEntry o.1 o.2).objIdx := Int.natCast_nonneg _

theorem mergeSym_objIdx (h : mergeSym o.1 o.2 g = .ok g')
    (hg : 0 ≤ g.objIdx) : 0 ≤ g'.objIdx := by
  unfold mergeSym at h
  split_ifs at h <;> cases h
  all_goals first | exact hg | exact Int.natCast_nonneg _

theorem entryOf_ok (h : entryOf occs = .ok (some g)) : Merged occs g ∧ 0 ≤ g.objIdx := by
  induction occs using reverseRecOn generalizing g with
  | nil => cases h
  | append_singleton occs o ih =>
    rw [entryOf_snoc] at h
    obtain ⟨g1, hg1, h⟩ := step_ok h
    cases g1 with
    | none =>
      cases h
      rw [entryOf_eq_none_iff.mp hg1]
      exact ⟨merged_newEntry o, newEntry_objIdx o⟩
    | some g1 =>
      obtain ⟨hmgd, hobj⟩ := ih hg1
      cases hmg : mergeSym o.1 o.2 g1 with
      | error e => simp [mergeOcc, hmg, Except.map] at h
      | ok g' =>
        have hg : g' = g := by simpa [mergeOcc, hmg, Except.map] using h
        subst hg
        exact ⟨hmgd.snoc hmg, mergeSym_objIdx hmg hobj⟩

theorem entryOf_error {e : String} (h : entryOf occs = .error e) : 2 ≤ (strongs occs).length := by
  induction occs using reverseRecOn with
  | nil => cases h
  | append_singleton occs o ih =>
    rw [entryOf_snoc] at h
    rcases step_error h with h | ⟨g1, hg1, h⟩
    · rw [strongs_snoc, length_append]
      exact (ih h).trans (Nat.le_add_right _ _)
    cases g1 with
    | none => cases h
    | some g1 =>
      cases hmg : mergeSym o.1 o.2 g1 with
      | error e' => exact (entryOf_ok hg1).1.two_le_of_error hmg
      | ok g' => simp [mergeOcc, hmg, Except.map] at h

theorem strongs_length_of_merged (h : Merged occs g) : (strongs occs).length ≤ 1 := by
  cases h with
  | undefined _ _ hdf =>
    rw [strongs_eq_filter_defs, hdf]
    exact Nat.zero_le _
  | weakly _ hstr =>
    rw [hstr]
    exact Nat.zero_le _
  | strongly _ hstr =>
    rw [hstr]
    exact le_refl _

/-! ## The script's assignments -/

def cursorsTo (name : Text) (assigned : List (Text × UInt32)) : List UInt32 :=
  (assigned.filter (·.1 = name)).map Prod.snd

theorem foldl_assign (cursors : List UInt32) (g : Symbol) :
    cursors.foldl Symbol.assign g = (cursors.getLast?.map g.assign).getD g := by
  induction cursors using reverseRecOn with
  | nil => rfl
  | append_singleton cursors cursor ih =>
    rw [foldl_append, ih, getLast?_concat]
    cases cursors.getLast? <;> rfl

theorem map_name_modify (syms : List Symbol) (e : Nat) (f : Symbol → Symbol)
    (hf : ∀ g, (f g).name = g.name) : (syms.modify e f).map Symbol.name = syms.map Symbol.name := by
  refine ext_getElem? fun i => ?_
  rw [getElem?_map, getElem?_map, getElem?_modify]
  cases syms[i]? with
  | none => rfl
  | some g =>
    by_cases h : e = i
    · simp [h, hf]
    · simp [h]

theorem assignSym_known {e : Nat}
    (hfd : symFind syms name = some e) (target : Text) (cursor : UInt32) :
    symFind (assignSym syms target cursor) name = some e ∧
      (assignSym syms target cursor)[e]? = syms[e]?.map fun g =>
        if target = name then g.assign cursor else g := by
  obtain ⟨he, hat, -⟩ := symFind_eq_some_iff.mp hfd
  unfold assignSym
  split
  · next i hi =>
    refine ⟨?_, ?_⟩
    · rw [symFind_congr (map_name_modify _ i (·.assign _) fun _ => rfl), hfd]
    by_cases hnm : target = name
    · subst hnm
      rw [hfd] at hi
      cases hi
      simp
    obtain ⟨hi', hiat, -⟩ := symFind_eq_some_iff.mp hi
    have hne : i ≠ e := by
      rintro rfl
      exact hnm (hiat.symm.trans hat)
    simp [hne, hnm]
  · next hno =>
    have hnm : target ≠ name := by
      rintro rfl
      rw [hfd] at hno
      cases hno
    refine ⟨?_, ?_⟩
    · rw [symFind_snoc, hfd]
      rfl
    · rw [getElem?_append_left he, getElem?_eq_getElem he]
      simp [hnm]

theorem assignAll_known {e : Nat}
    (hfd : symFind syms name = some e) (assigned : List (Text × UInt32)) :
    symFind (assignAll syms assigned) name = some e ∧ (assignAll syms assigned)[e]? =
        syms[e]?.map ((cursorsTo name assigned).foldl Symbol.assign) := by
  induction assigned using reverseRecOn with
  | nil =>
    refine ⟨hfd, ?_⟩
    show syms[e]? = syms[e]?.map id
    rw [Option.map_id_fun, id]
  | append_singleton assigned a ih =>
    have hls : assignAll syms (assigned ++ [a]) = assignSym (assignAll syms assigned) a.1 a.2 := by
      rw [assignAll, foldl_append]
      rfl
    obtain ⟨hfnd, hent⟩ := assignSym_known ih.1 a.1 a.2
    rw [hls]
    refine ⟨hfnd, ?_⟩
    rw [hent, ih.2, Option.map_map]
    congr 1
    funext g
    have hcur : cursorsTo name (assigned ++ [a]) =
        cursorsTo name assigned ++ if a.1 = name then [a.2] else [] := by
      rw [cursorsTo, filter_append, map_append, ← cursorsTo]
      by_cases hnm : a.1 = name <;> simp [hnm]
    rw [hcur, foldl_append]
    by_cases hnm : a.1 = name <;> simp [hnm]

/-! ## The addresses of the definitions -/

/-- The symbol's address is computed from that of a section. -/
def InputSym.Sectioned (isym : InputSym) : Prop :=
  (isym.binding = stbLocal ∧ isym.type = sttSection) ∨ (isym.shndx ≠ shnUndef ∧ isym.shndx ≠ shnAbs)

/-- Of a section number in the table, what `secAddr` gives. -/
def Object.placedAt (obj : Object) (shndx : Nat) : UInt32 :=
  (obj.sections[shndx]?.map InputSec.assignedVaddr).getD 0

/-- The address a symbol writes to its entry when the sections have been placed. -/
def written (objs : List Object) (o : Occ) : Option UInt32 :=
  match objs[o.1]? with
  | none => none
  | some obj =>
    if o.2.binding = stbLocal ∧ o.2.type = sttSection then some (obj.placedAt o.2.shndx)
    else if o.2.shndx ≠ shnUndef ∧ o.2.shndx ≠ shnAbs then some (obj.placedAt o.2.shndx + o.2.value)
    else
      none

def resolveOcc (objs : List Object) (o : Occ) (g : Symbol) : Symbol :=
  if g.objIdx < 0 then g else { g with value := (written objs o).getD g.value }

variable {obj : Object} {oi : Nat}

theorem secAddr_ok {shndx : Nat} {addr : UInt32} (h : obj.secAddr shndx = .ok addr) :
    addr = obj.placedAt shndx := by
  unfold Object.secAddr at h
  unfold Object.placedAt
  split at h
  · next hsec =>
    cases h
    rw [hsec]
    rfl
  · cases h

theorem resolveSym_ok {all : List Object} {isym : InputSym}
    (hobj : all[oi]? = some obj) (h : resolveSym obj isym g = .ok g') : g' = resolveOcc all (oi, isym) g := by
  unfold resolveSym at h
  unfold resolveOcc written
  rw [hobj]
  dsimp only
  split at h
  · next hneg =>
    cases h
    rw [if_pos hneg]
  rename_i hneg
  rw [if_neg hneg]
  split at h
  · next hloc =>
    obtain ⟨addr, haddr, h⟩ := step_ok h
    cases h
    rw [if_pos hloc, secAddr_ok haddr]
    rfl
  rename_i hloc
  rw [if_neg hloc]
  split at h
  · next hdef =>
    obtain ⟨addr, haddr, h⟩ := step_ok h
    cases h
    rw [if_pos hdef, secAddr_ok haddr]
    rfl
  · next hdef =>
    cases h
    rw [if_neg hdef]
    rfl

theorem resolveAt_ok {all : List Object} (hobj : all[oi]? = some obj)
    {s : InputSym × Nat} (h : resolveAt obj syms s = .ok syms') :
    syms' = syms.modify s.2 (resolveOcc all (oi, s.1)) := by
  unfold resolveAt at h
  split at h
  · next hno =>
    cases h
    rw [modify_eq_self (by simpa using hno)]
  · next g hg =>
    obtain ⟨g', hg', h⟩ := step_ok h
    cases h
    obtain ⟨hlt, hat⟩ := List.getElem?_eq_some_iff.mp hg
    rw [modify_eq_set, hg, resolveSym_ok hobj hg']
    rfl

theorem foldlM_ok {ε α β : Type} {f : β → α → Except ε β} {f' : β → α → β}
    (hf : ∀ b a b', f b a = .ok b' → b' = f' b a) {l : List α} {b b' : β} (h : l.foldlM f b = .ok b') :
    b' = l.foldl f' b := by
  induction l generalizing b with
  | nil =>
    cases h
    rfl
  | cons a l ih =>
    obtain ⟨b1, hb1, h⟩ := step_ok h
    rw [foldl_cons, ← hf b a b1 hb1]
    exact ih h

theorem foldlM_ne_error {ε α β : Type} {f : β → α → Except ε β} {e : ε} {l : List α}
    (hf : ∀ a ∈ l, ∀ b, f b a ≠ .error e) (b : β) : l.foldlM f b ≠ .error e := by
  induction l generalizing b with
  | nil => nofun
  | cons a l ih =>
    intro h
    rcases step_error h with h | ⟨b1, -, h⟩
    · exact hf a mem_cons_self b h
    · exact ih (fun a ha => hf a (mem_cons_of_mem _ ha)) b1 h

variable (objs : List Object) {a : Text × UInt32}

theorem resolveOcc_eq (o : Occ) (hg : 0 ≤ g.objIdx) :
    resolveOcc objs o g = { g with value := (written objs o).getD g.value } :=
  if_neg (not_lt.mpr hg)

theorem foldl_resolveOcc (occs : List Occ) (hg : 0 ≤ g.objIdx) :
    occs.foldl (fun g o => resolveOcc objs o g) g =
      { g with value := ((occs.filterMap (written objs)).getLast?).getD g.value } := by
  induction occs generalizing g with
  | nil => rfl
  | cons o occs ih =>
    have hg' : 0 ≤ (resolveOcc objs o g).objIdx := by
      rw [resolveOcc_eq _ o hg]
      exact hg
    rw [foldl_cons, ih hg', resolveOcc_eq _ o hg]
    cases hw : written _ o with
    | none =>
      rw [filterMap_cons_none hw]
      rfl
    | some v =>
      rw [filterMap_cons_some hw, getLast?_cons]
      rfl

theorem foldl_modify_getElem? (pairs : List (Occ × Nat)) (f : Occ → Symbol → Symbol)
    (syms : List Symbol) (e : Nat) : (pairs.foldl (fun syms q => syms.modify q.2 (f q.1)) syms)[e]? =
      syms[e]?.map fun g => ((pairs.filter (·.2 = e)).map Prod.fst).foldl (fun g o => f o g) g := by
  induction pairs generalizing syms with
  | nil => simp
  | cons q pairs ih =>
    rw [foldl_cons, ih, getElem?_modify, Option.map_eq_map, Option.map_map]
    congr 1
    funext g
    by_cases h : q.2 = e <;> simp [h]

theorem foldlM_resolveObj {all objs : List Object} (oi : Nat) (hall : all.drop oi = objs)
    (h : objs.foldlM resolveObj syms = .ok syms') :
    syms' = (places oi objs).foldl (fun syms q => syms.modify q.2 (resolveOcc all q.1)) syms := by
  induction objs generalizing oi syms with
  | nil =>
    cases h
    rfl
  | cons obj objs ih =>
    have hobj : all[oi]? = some obj := by
      rw [← head?_drop, hall]
      rfl
    have hrs : all.drop (oi + 1) = objs := by
      rw [← drop_drop, hall]
      rfl
    obtain ⟨syms1, hfst, h⟩ := step_ok h
    rw [ih _ hrs h, places, foldl_append, foldlM_ok (fun _ _ _ => resolveAt_ok hobj) hfst, zip_map_left,
      foldl_map]
    rfl

/-! ## Layout leaves the symbols of the objects -/

def Object.table (obj : Object) : List InputSym × List Nat × Nat :=
  (obj.syms, obj.symMap, obj.sections.length)

theorem length_placeSecs (pat : SecPattern) (os : OutputSec) (isecs : List InputSec) :
    (placeSecs pat os isecs).2.length = isecs.length := by
  induction isecs generalizing os with
  | nil => rfl
  | cons isec isecs ih => exact congrArg (· + 1) (ih _)

theorem placePattern_table (pat : SecPattern) (os : OutputSec) (objs : List Object) :
    (placePattern pat os objs).2.map Object.table = objs.map Object.table := by
  induction objs generalizing os with
  | nil => rfl
  | cons obj objs ih =>
    rw [placePattern, map_cons, map_cons]
    refine congrArg₂ _ ?_ (ih _)
    exact congrArg (fun n => (obj.syms, obj.symMap, n)) (length_placeSecs pat os _)

theorem layoutPatterns_table (target : Nat) (os : OutputSec) (objs : List Object)
    (syms : List Symbol) (pats : List SecPattern) :
    (layoutPatterns target os objs syms pats).2.1.map Object.table = objs.map Object.table := by
  induction pats generalizing target os objs syms with
  | nil => rfl
  | cons pat pats ih =>
    rw [layoutPatterns]
    rw [ih, placePattern_table]

theorem discardPatterns_table (pats : List SecPattern) (objs : List Object) :
    (pats.foldl discardPattern objs).map Object.table = objs.map Object.table := by
  induction pats generalizing objs with
  | nil => rfl
  | cons pat pats ih =>
    rw [foldl_cons, ih, discardPattern, map_map]
    refine map_congr_left fun obj _ => ?_
    exact congrArg (fun n => (obj.syms, obj.symMap, n)) (length_map ..)

/-- The assignments carried out for one output section of the script. -/
def secAssigns (p : Placing) (os : OutputSec) : List (Text × UInt32) :=
  if os.discard then []
  else
    match regionOf p.regions os with
    | .error _ => []
    | .ok region => made (startAt p.regions region os) p.objs

/-- The assignments carried out for the sections of a script in turn. -/
def scriptAssigns (p : Placing) : List OutputSec → List (Text × UInt32)
  | [] => []
  | os :: rest =>
    match layoutSec p os with
    | .error _ => []
    | .ok (p', _) => secAssigns p os ++ scriptAssigns p' rest

theorem layoutSec_spec {p p' : Placing} {os os' : OutputSec} (h : layoutSec p os = .ok (p', os')) :
    p'.syms = assignAll p.syms (secAssigns p os) ∧ p'.objs.map Object.table = p.objs.map Object.table := by
  cases hdsc : os.discard with
  | true =>
    rw [layoutSec, if_pos hdsc] at h
    cases h
    rw [secAssigns, if_pos hdsc]
    exact ⟨rfl, discardPatterns_table _ _⟩
  | false =>
    have hkp : ¬ os.discard = true := by
      rw [hdsc]
      exact Bool.false_ne_true
    have hrun := h
    rw [layoutSec, if_neg hkp] at hrun
    obtain ⟨region, hreg, hrun⟩ := step_ok hrun
    obtain ⟨regions, _, hrun⟩ := step_ok hrun
    cases hrun
    refine ⟨?_, layoutPatterns_table ..⟩
    rw [secAssigns, if_neg hkp, hreg]
    exact layoutSec_syms hdsc hreg h

theorem layoutSecs_spec {p p' : Placing} {secs secs' : List OutputSec}
    (h : layoutSecs p secs = .ok (p', secs')) : p'.syms = assignAll p.syms (scriptAssigns p secs) ∧
      p'.objs.map Object.table = p.objs.map Object.table := by
  induction secs generalizing p secs' with
  | nil =>
    cases h
    exact ⟨rfl, rfl⟩
  | cons os rest ih =>
    obtain ⟨⟨p1, os1⟩, hfst, h⟩ := step_ok h
    obtain ⟨⟨p2, rest2⟩, hrs, h⟩ := step_ok h
    cases h
    obtain ⟨hsy, htab⟩ := layoutSec_spec hfst
    obtain ⟨hsy', htab'⟩ := ih hrs
    refine ⟨?_, htab'.trans htab⟩
    rw [hsy', hsy, scriptAssigns, hfst]
    exact (foldl_append ..).symm

theorem places_congr {objs objs' : List Object}
    (h : objs.map Object.table = objs'.map Object.table) (oi : Nat) : places oi objs = places oi objs' := by
  induction objs generalizing objs' oi with
  | nil =>
    cases objs' with
    | nil => rfl
    | cons obj' objs' => cases h
  | cons obj objs ih =>
    cases objs' with
    | nil => cases h
    | cons obj' objs' =>
      rw [map_cons, map_cons, cons_eq_cons] at h
      have hsy : obj.syms = obj'.syms := congrArg Prod.fst h.1
      have hmap : obj.symMap = obj'.symMap := congrArg (·.2.1) h.1
      rw [places, places, ih h.2, hsy, hmap]

/-! ## The rule and what becomes of it -/

def globals (name : Text) (occs : List Occ) : List Occ :=
  occs.filter fun o => decide (o.2.name = name) && !o.2.isLocal

def addrOf (o : Occ) : UInt32 :=
  if o.2.shndx = shnAbs then o.2.value
  else ((objs[o.1]?.map fun obj => obj.placedAt o.2.shndx).getD 0) + o.2.value

section

variable (cursors : List UInt32)

/-- What a name ought to resolve to: the strong definition, the first weak one, what the script
assigns, or zero when all references are weak. -/
def rule (refs : List Occ) : Option UInt32 :=
  match (strongs refs).head?.or (defs refs).head? with
  | some o => some (addrOf objs o)
  | none =>
    match cursors.getLast? with
    | some cursor => some cursor
    | none => if refs.all (·.2.isWeak) then some 0 else none

def stValue (sharers : List Occ) : UInt32 :=
  (((strongs sharers).head?.or ((defs sharers).head?.or sharers.head?)).map (·.2.value)).getD 0

def lastWritten (sharers : List Occ) : UInt32 :=
  ((cursors ++ sharers.filterMap (written objs)).getLast?).getD (stValue sharers)

/-- What the linker makes of a name, from the symbols that share its entry. -/
def outcome (sharers : List Occ) : Option UInt32 :=
  if sharers.any (·.2.isDef) ∨ cursors ≠ [] ∨ sharers.all (·.2.isWeak) then
    some (lastWritten objs cursors sharers)
  else
    none

/-- What an entry resolves a reference to; `ld_check_undefined` stops at an undefined one that is not
weak. -/
def Symbol.resolution (g : Symbol) : Option UInt32 :=
  if g.defined || g.weak then some g.value else none

/-- An entry at the end of `ld_layout`. -/
def finish (sharers : List Occ) (g : Symbol) : Symbol :=
  sharers.foldl (fun g o => resolveOcc objs o g) (cursors.foldl Symbol.assign g)

end

theorem any_isDef_eq_false (h : defs occs = []) : occs.any (·.2.isDef) = false := by
  rw [any_eq_false]
  exact filter_eq_nil_iff.mp h

theorem any_isDef_of_mem (h : o ∈ defs occs) : occs.any (·.2.isDef) = true :=
  any_eq_true.mpr ⟨o, (mem_filter.mp h).1, (mem_filter.mp h).2⟩

theorem mem_defs_of_strongs (h : o ∈ strongs occs) : o ∈ defs occs := by
  rw [strongs_eq_filter_defs] at h
  exact (mem_filter.mp h).1

theorem Merged.defined_eq (h : Merged occs g) : g.defined = occs.any (·.2.isDef) := by
  cases h with
  | undefined _ _ hdf defined => rw [defined, any_isDef_eq_false hdf]
  | weakly o _ hdf defined => rw [defined, any_isDef_of_mem (mem_of_head? hdf)]
  | strongly o hstr defined =>
    have hmem : o ∈ strongs occs := by
      rw [hstr]
      exact mem_singleton_self o
    rw [defined, any_isDef_of_mem (mem_defs_of_strongs hmem)]

theorem Merged.value_eq (h : Merged occs g) : g.value = stValue occs := by
  cases h with
  | undefined first hfst hdf _ value =>
    have hstr : strongs occs = [] := by
      rw [strongs_eq_filter_defs, hdf]
      rfl
    rw [value, stValue, hstr, hdf, hfst]
    rfl
  | weakly o hstr hdf _ value =>
    rw [value, stValue, hstr, hdf]
    rfl
  | strongly o hstr _ value =>
    rw [value, stValue, hstr]
    rfl

theorem Merged.weak_eq (h : Merged occs g)
    (hudf : g.defined = false) : g.weak = occs.all (·.2.isWeak) := by
  cases h with
  | undefined _ _ _ _ _ weak => exact weak
  | weakly _ _ _ defined =>
    rw [defined] at hudf
    cases hudf
  | strongly _ _ defined =>
    rw [defined] at hudf
    cases hudf

theorem finish_resolution (cursors : List UInt32) {sharers : List Occ} (h : Merged sharers g)
    (hobj : 0 ≤ g.objIdx) : (finish objs cursors sharers g).resolution = outcome objs cursors sharers := by
  rw [finish, foldl_assign, outcome, lastWritten, getLast?_append, ← h.value_eq]
  cases hls : cursors.getLast? with
  | none =>
    -- without an assignment the entry is as the symbols left it
    have hcur : cursors = [] := getLast?_eq_none_iff.mp hls
    show Symbol.resolution (sharers.foldl _ g) = _
    rw [foldl_resolveOcc _ _ hobj, Symbol.resolution, Option.or_none, hcur]
    rw [h.defined_eq]
    cases hdef : sharers.any _ with
    | true => simp
    | false =>
      rw [h.weak_eq (h.defined_eq.trans hdef)]
      exact if_congr (by simp) rfl rfl
  | some cursor =>
    have hcur : cursors ≠ [] := by
      rintro rfl
      cases hls
    have hobj' : 0 ≤ (g.assign cursor).objIdx := hobj
    show Symbol.resolution (sharers.foldl _ (g.assign cursor)) = _
    rw [foldl_resolveOcc _ _ hobj', Symbol.resolution, if_pos (by simp [Symbol.assign]),
      if_pos (.inr (.inl hcur))]
    cases (sharers.filterMap _).getLast? <;> rfl

/-! ## The whole link -/

def Linker.assigned (ld : Linker) : List (Text × UInt32) :=
  match collectSymbols 0 ld.syms ld.objs with
  | .error _ => []
  | .ok (syms, objs) => scriptAssigns (ld.placing syms objs) ld.script.sections

theorem ldLayout_ok (h : ldLayout ld = .ok ld') : ∃ syms objs p secs syms',
    collectSymbols 0 ld.syms ld.objs = .ok (syms, objs) ∧
      layoutSecs (ld.placing syms objs) ld.script.sections = .ok (p, secs) ∧
      p.objs.foldlM resolveObj p.syms = .ok syms' ∧ ld'.objs = p.objs ∧ ld'.syms = syms' := by
  obtain ⟨⟨syms, objs⟩, hcll, h⟩ := step_ok h
  obtain ⟨⟨p, secs⟩, hsecs, h⟩ := step_ok h
  obtain ⟨syms', hres, h⟩ := step_ok h
  obtain ⟨entry, -, h⟩ := step_ok h
  cases h
  exact ⟨syms, objs, p, secs, syms', orDie_eq_ok.mp hcll, orDie_eq_ok.mp hsecs, hres, rfl, rfl⟩

/-- What the stages of a layout leave: entries as the symbols make them, then the assignments of the script
and the loop over the symbols of the objects. -/
structure LaidOut (ld ld' : Linker) (syms : List Symbol) : Prop where
  collected : Collected (places 0 ld'.objs) syms
  occs : (places 0 ld'.objs).map Prod.fst = occurrences 0 ld.objs
  syms : ld'.syms = (places 0 ld'.objs).foldl (fun syms q => syms.modify q.2 (resolveOcc ld'.objs q.1))
    (assignAll syms ld.assigned)

theorem ldLayout_laidOut (hsy : ld.syms = []) (h : ldLayout ld = .ok ld') : ∃ syms, LaidOut ld ld' syms := by
  obtain ⟨syms, objs, p, secs, syms', hcll, hsecs, hres, hobjs, hsyms⟩ := ldLayout_ok h
  obtain ⟨hps, htab⟩ := layoutSecs_spec hsecs
  have hassigned : p.syms = assignAll syms ld.assigned := by
    rw [Linker.assigned, hcll]
    exact hps
  rw [hsy] at hcll
  obtain ⟨hmapped, hoccs, hcol⟩ := collectSymbols_ok Collected.nil hcll
  have hplaces : places 0 ld'.objs = places 0 objs := by
    rw [hobjs]
    exact places_congr htab 0
  refine ⟨syms, ?_, ?_, ?_⟩
  · rwa [hplaces]
  · rw [hplaces, places_map_fst hmapped, hoccs]
  · rw [hsyms, foldlM_resolveObj 0 drop_zero hres, hassigned, hobjs]

theorem ldLayout_resolution (hsy : ld.syms = []) (h : ldLayout ld = .ok ld')
    {q : Occ × Nat} (hq : q ∈ places 0 ld'.objs) (hglb : q.1.2.isLocal = false) :
    ∃ g, ld'.syms[q.2]? = some g ∧ g.resolution = outcome ld'.objs (cursorsTo q.1.2.name ld.assigned)
        (sharing q.1.2.name (occurrences 0 ld.objs)) := by
  obtain ⟨syms, hcol, hoccs, hsyms⟩ := ldLayout_laidOut hsy h
  -- the entry as the symbols leave it
  have hfd := hcol.known q hq hglb
  obtain ⟨he, -⟩ := symFind_eq_some_iff.mp hfd
  have hent := hcol.entry q.1.2.name
  have hplc := hcol.place _ q.2 hfd
  rw [hoccs] at hent hplc
  rw [lookup_of_symFind hfd, getElem?_eq_getElem he] at hent
  obtain ⟨hmgd, hobj⟩ := entryOf_ok hent
  -- then the script and the loop over the objects
  refine ⟨_, ?_, finish_resolution _ _ hmgd hobj⟩
  rw [hsyms, foldl_modify_getElem?, hplc, (assignAll_known hfd _).2, getElem?_eq_getElem he]
  rfl

/-- Some name has two strong definitions. -/
def TwoStrong (occs : List Occ) : Prop := ∃ name, 2 ≤ (strongs (globals name occs)).length

/-- The objects are rejected exactly when a name has two strong definitions; otherwise no section table
is read past its end, and every symbol that is not local resolves as the rule says. -/
structure Resolves (ld : Linker) : Prop where
  rejects : (∃ e, collectSymbols 0 ld.syms ld.objs = .error e) ↔ TwoStrong (occurrences 0 ld.objs)
  reads : ldLayout ld ≠ .error .outside
  resolves : ∀ ld', ldLayout ld = .ok ld' → ∀ q ∈ places 0 ld'.objs, q.1.2.isLocal = false →
    ∃ g, ld'.syms[q.2]? = some g ∧ g.resolution = rule ld'.objs (cursorsTo q.1.2.name ld.assigned)
        (globals q.1.2.name (occurrences 0 ld.objs))

/-! ## Objects in which the rule holds -/

def InRange : Prop :=
  ∀ obj ∈ objs, ∀ isym ∈ obj.syms, isym.Sectioned → isym.shndx < obj.sections.length

def Script.Assigns (script : Script) (name : Text) : Prop :=
  ∃ os ∈ script.sections, ∃ sa ∈ os.assigns, sa.name = name

/-- The symbols of a name, by their order, their bindings, sections and values alone. -/
structure Orderly (script : Script) (occs : List Occ) (name : Text) : Prop where
  /-- no local symbol of the name comes first -/
  front : ∀ o ∈ (occs.filter (·.2.name = name)).head?, o.2.isLocal = false
  /-- the definition to be chosen is the last one in a section; if it is absolute there is none in a
  section, and the script does not assign the name -/
  last : ∀ o, (strongs (globals name occs)).head?.or (defs (globals name occs)).head? = some o →
    if o.2.shndx = shnAbs then (∀ d ∈ defs (globals name occs), d.2.shndx = shnAbs) ∧ ¬script.Assigns name
    else ((defs (globals name occs)).filter (·.2.shndx ≠ shnAbs)).getLast? = some o
  /-- a name that is only referred to, and weakly, begins with the value zero -/
  zero : defs (globals name occs) = [] → (∀ o ∈ globals name occs, o.2.isWeak = true) →
    ∀ o ∈ (globals name occs).head?, o.2.value = 0

theorem globals_sublist_sharing (name : Text) (occs : List Occ) :
    (globals name occs).Sublist (sharing name occs) := by
  have hgls : globals name occs = (occs.filter (·.2.name = name)).filter (!·.2.isLocal) := by
    rw [filter_filter]
    refine filter_congr fun o _ => Bool.and_comm ..
  rw [hgls]
  unfold sharing
  cases occs.filter _ with
  | nil => exact List.Sublist.refl _
  | cons o rest =>
    rw [filter_cons]
    split
    · exact List.Sublist.refl _
    · exact sublist_cons_self ..

theorem two_le_sharing
    (h : 2 ≤ (strongs (globals name occs)).length) : 2 ≤ (strongs (sharing name occs)).length :=
  h.trans ((globals_sublist_sharing name occs).filter _).length_le

theorem exists_global_of_two_le (h : 2 ≤ (strongs (sharing name occs)).length) :
    ∃ o ∈ occs, o.2.isLocal = false ∧ o.2.name = name := by
  have hlen := h.trans (length_filter_le ..)
  unfold sharing at hlen
  cases hocc : occs.filter _ with
  | nil =>
    rw [hocc] at hlen
    cases hlen
  | cons o rest =>
    rw [hocc] at hlen
    have hpos : 0 < (rest.filter (!·.2.isLocal)).length := Nat.le_of_succ_le_succ hlen
    obtain ⟨o', ho'⟩ := exists_mem_of_length_pos hpos
    obtain ⟨hmem, hglb⟩ := mem_filter.mp ho'
    have hin : o' ∈ occs.filter (·.2.name = name) := by
      rw [hocc]
      exact mem_cons_of_mem o hmem
    obtain ⟨hin, hnm⟩ := mem_filter.mp hin
    exact ⟨o', hin, by simpa using hglb, of_decide_eq_true hnm⟩

theorem collectSymbols_error_iff : (∃ e, collectSymbols 0 [] objs = .error e) ↔
      ∃ name, 2 ≤ (strongs (sharing name (occurrences 0 objs))).length := by
  constructor
  · rintro ⟨e, he⟩
    obtain ⟨name, hnm⟩ := collectSymbols_error Collected.nil he
    exact ⟨name, entryOf_error hnm⟩
  rintro ⟨name, htwo⟩
  cases hrun : collectSymbols 0 [] objs with
  | error e => exact ⟨e, rfl⟩
  | ok r =>
    obtain ⟨hmapped, hoccs, hcol⟩ := collectSymbols_ok Collected.nil hrun
    have hent := hcol.entry name
    rw [nil_append, places_map_fst hmapped, hoccs] at hent
    cases hlook : lookup r.1 _ with
    | none =>
      rw [hlook] at hent
      rw [entryOf_eq_none_iff.mp hent] at htwo
      cases htwo
    | some g =>
      rw [hlook] at hent
      have hone := strongs_length_of_merged (entryOf_ok hent).1
      omega

theorem sharing_eq_globals (h : ∀ o ∈ (occs.filter (·.2.name = name)).head?, o.2.isLocal = false) :
    sharing name occs = globals name occs := by
  have hgls : globals name occs = (occs.filter (·.2.name = name)).filter (!·.2.isLocal) := by
    rw [filter_filter]
    exact filter_congr fun o _ => Bool.and_comm ..
  rw [hgls]
  unfold sharing
  cases hocc : occs.filter _ with
  | nil => rfl
  | cons o rest =>
    rw [hocc] at h
    rw [filter_cons_of_pos (by rw [h o rfl]; rfl)]

theorem mem_occurrences (h : o ∈ occurrences oi objs) : oi ≤ o.1 ∧ o.1 < oi + objs.length := by
  induction objs generalizing oi with
  | nil => cases h
  | cons obj objs ih =>
    rw [length_cons]
    rcases mem_append.mp h with h | h
    · obtain ⟨isym, -, rfl⟩ := mem_map.mp h
      dsimp only
      omega
    · have := ih h
      omega

theorem written_global (hlocal : o.2.isLocal = false) (hobj : o.1 < objs.length) : written objs o =
    if o.2.isDef && decide (o.2.shndx ≠ shnAbs) then some (addrOf objs o) else none := by
  have hbind : ¬(o.2.binding = stbLocal ∧ o.2.type = sttSection) := by
    rintro ⟨h, -⟩
    rw [InputSym.isLocal, h] at hlocal
    cases hlocal
  unfold written addrOf
  rw [getElem?_eq_getElem hobj]
  dsimp only [InputSym.isDef]
  rw [if_neg hbind]
  by_cases hdef : o.2.shndx = shnUndef <;> by_cases habs : o.2.shndx = shnAbs <;> simp [hdef, habs]

/-- The last address written to the entry is the one the rule asks for. -/
theorem Orderly.outcome_eq {script : Script} {cursors : List UInt32} {refs : List Occ}
    (h : Orderly script occs name) (hrefs : refs = globals name occs)
    (hcur : ¬script.Assigns name → cursors = []) (hobjs : ∀ o ∈ occs, o.1 < objs.length) :
    outcome objs cursors refs = rule objs cursors refs := by
  have hlast := h.last
  have hzero := h.zero
  have hwritten : refs.filterMap (written objs) =
      ((defs refs).filter (·.2.shndx ≠ shnAbs)).map (addrOf objs) := by
    have hrefs' : ∀ o ∈ refs, o ∈ occs ∧ o.2.isLocal = false := by
      intro o ho
      rw [hrefs] at ho
      obtain ⟨ho, hglb⟩ := mem_filter.mp ho
      exact ⟨ho, by simpa using (Bool.and_eq_true_iff.mp hglb).2⟩
    clear hrefs
    induction refs with
    | nil => rfl
    | cons o refs ih =>
      obtain ⟨ho, hglb⟩ := hrefs' o mem_cons_self
      have hrest := ih fun o ho => hrefs' o (mem_cons_of_mem _ ho)
      rw [filterMap_cons, written_global _ hglb (hobjs o ho), hrest, defs, defs, filter_cons]
      by_cases hdef : o.2.isDef = true <;> by_cases habs : o.2.shndx = shnAbs <;> simp [hdef, habs]
  rw [← hrefs] at hlast hzero
  unfold outcome rule lastWritten
  rw [hwritten]
  cases hch : (strongs refs).head?.or (defs refs).head? with
  | some o =>
    have hmem : o ∈ defs refs := by
      rcases Option.or_eq_some_iff.mp hch with hst | ⟨-, hdf⟩
      · exact mem_defs_of_strongs (mem_of_head? hst)
      · exact mem_of_head? hdf
    have hlast := hlast o hch
    rw [if_pos (.inl (any_isDef_of_mem hmem)), getLast?_append, getLast?_map]
    split at hlast
    · next habs =>
      have hno : (defs refs).filter (·.2.shndx ≠ shnAbs) = [] :=
        filter_eq_nil_iff.mpr fun d hd => by simpa using hlast.1 d hd
      have haddr : addrOf objs o = o.2.value := if_pos habs
      rw [hno, hcur hlast.2]
      show some (stValue refs) = some (addrOf objs o)
      rw [haddr, stValue, ← Option.or_assoc, hch]
      rfl
    · rw [hlast]
      rfl
  | none =>
    obtain ⟨-, hdf⟩ := Option.or_eq_none_iff.mp hch
    rw [head?_eq_none_iff] at hdf
    rw [hdf, filter_nil, map_nil, append_nil, any_isDef_eq_false hdf]
    cases hls : cursors.getLast? with
    | some cursor =>
      have hne : cursors ≠ [] := by
        rintro rfl
        cases hls
      rw [if_pos (.inr (.inl hne))]
      rfl
    | none =>
      obtain rfl := getLast?_eq_none_iff.mp hls
      simp only [Bool.false_eq_true, ne_eq, not_true_eq_false, false_or]
      split
      · next hweak =>
        have hval : stValue refs = 0 := by
          rw [stValue, ← Option.or_assoc, hch, Option.none_or]
          cases hhd : refs.head? with
          | none => rfl
          | some first => exact hzero hdf (all_eq_true.mp hweak) first hhd
        rw [hval]
        rfl
      · rfl

/-! ## What the script assigns -/

theorem name_of_dueAt {assigns : List SymAssign} {target : Nat} {cursor : UInt32}
    (h : a ∈ dueAt assigns target cursor) : ∃ sa ∈ assigns, sa.name = a.1 := by
  obtain ⟨sa, hsa, rfl⟩ := mem_map.mp h
  exact ⟨sa, (mem_filter.mp hsa).1, rfl⟩

theorem name_of_made {os : OutputSec} (h : a ∈ made os objs) :
    ∃ sa ∈ os.assigns, sa.name = a.1 := by
  have hfrom : ∀ {pats target os' objs'}, a ∈ madeFrom os.assigns target os' objs' pats →
      ∃ sa ∈ os.assigns, sa.name = a.1 := by
    intro pats
    induction pats with
    | nil => exact fun h => absurd h not_mem_nil
    | cons pat pats ih =>
      intro target os' objs' h
      rcases mem_append.mp h with h | h
      · exact name_of_dueAt h
      · exact ih h
  rcases mem_append.mp h with h | h
  · exact name_of_dueAt h
  · exact hfrom h

theorem name_of_secAssigns {p : Placing} {os : OutputSec} (h : a ∈ secAssigns p os) :
    ∃ sa ∈ os.assigns, sa.name = a.1 := by
  unfold secAssigns at h
  split at h
  · cases h
  split at h
  · cases h
  · next region _ =>
    obtain ⟨vaddr, hbeg⟩ := startAt_keeps p.regions region os
    rw [hbeg] at h
    have hname := name_of_made _ h
    exact hname

theorem name_of_scriptAssigns {p : Placing} {secs : List OutputSec}
    (h : a ∈ scriptAssigns p secs) : ∃ os ∈ secs, ∃ sa ∈ os.assigns, sa.name = a.1 := by
  induction secs generalizing p with
  | nil => cases h
  | cons os rest ih =>
    unfold scriptAssigns at h
    split at h
    · cases h
    rcases mem_append.mp h with h | h
    · exact ⟨os, mem_cons_self, name_of_secAssigns h⟩
    · obtain ⟨os', hos', hsa⟩ := ih h
      exact ⟨os', mem_cons_of_mem _ hos', hsa⟩

theorem cursorsTo_eq_nil {assigned : List (Text × UInt32)} (h : ∀ a ∈ assigned, a.1 ≠ name) :
    cursorsTo name assigned = [] := by
  rw [cursorsTo, filter_eq_nil_iff.mpr fun a ha => by simpa using h a ha]
  rfl

theorem Linker.cursors_of_not_assigns (h : ¬ld.script.Assigns name) : cursorsTo name ld.assigned = [] := by
  refine cursorsTo_eq_nil fun a ha hname => h ?_
  unfold Linker.assigned at ha
  split at ha
  · cases ha
  · obtain ⟨os, hos, sa, hsa, hsaname⟩ := name_of_scriptAssigns ha
    exact ⟨os, hos, sa, hsa, hsaname.trans hname⟩

/-! ## Objects are read inside their tables -/

theorem resolveAt_ne_outside {s : InputSym × Nat} (h : s.1.Sectioned → s.1.shndx < obj.sections.length)
    (syms : List Symbol) : resolveAt obj syms s ≠ .error .outside := by
  have hsec : s.1.Sectioned → ∃ addr, obj.secAddr s.1.shndx = .ok addr := by
    intro hs
    rw [Object.secAddr, getElem?_eq_getElem (h hs)]
    exact ⟨_, rfl⟩
  unfold resolveAt
  split
  · nofun
  intro hout
  rcases step_error hout with hout | ⟨g', -, hout⟩
  · unfold resolveSym at hout
    split at hout
    · cases hout
    split at hout
    · next hloc =>
      obtain ⟨addr, haddr⟩ := hsec (.inl hloc)
      rw [haddr] at hout
      cases hout
    split at hout
    · next hdef =>
      obtain ⟨addr, haddr⟩ := hsec (.inr hdef)
      rw [haddr] at hout
      cases hout
    · cases hout
  · cases hout

theorem collectSymbols_table {objs objs' : List Object}
    (h : collectSymbols oi syms objs = .ok (syms', objs')) :
    objs'.map (fun obj => (obj.syms, obj.sections.length)) =
      objs.map fun obj => (obj.syms, obj.sections.length) := by
  induction objs generalizing oi syms objs' with
  | nil =>
    cases h
    rfl
  | cons obj objs ih =>
    obtain ⟨⟨syms1, symMap⟩, -, h⟩ := step_ok h
    obtain ⟨⟨syms2, objs2⟩, hrs, h⟩ := step_ok h
    cases h
    exact congrArg (_ :: ·) (ih hrs)

theorem layout_table {objs : List Object} {p : Placing} {secs : List OutputSec}
    (hcll : collectSymbols 0 ld.syms ld.objs = .ok (syms, objs))
    (hsecs : layoutSecs (ld.placing syms objs) ld.script.sections = .ok (p, secs)) :
    p.objs.map (fun obj => (obj.syms, obj.sections.length)) =
      ld.objs.map fun obj => (obj.syms, obj.sections.length) := by
  have htab := congrArg (map fun t : List InputSym × List Nat × Nat => (t.1, t.2.2)) (layoutSecs_spec hsecs).2
  rw [map_map, map_map] at htab
  exact htab.trans (collectSymbols_table hcll)

theorem InRange.reads (h : InRange ld.objs) : ldLayout ld ≠ .error .outside := by
  intro hout
  rcases step_error hout with hout | ⟨⟨syms, objs⟩, hcll, hout⟩
  · exact orDie_ne_outside _ hout
  rcases step_error hout with hout | ⟨⟨p, secs⟩, hsecs, hout⟩
  · exact orDie_ne_outside _ hout
  rcases step_error hout with hout | ⟨syms', -, hout⟩
  · refine foldlM_ne_error (fun obj hobj syms1 => ?_) _ hout
    refine foldlM_ne_error (fun s hs syms2 => resolveAt_ne_outside (fun hsec => ?_) syms2) _
    have htab := layout_table (orDie_eq_ok.mp hcll) (orDie_eq_ok.mp hsecs)
    have hmem := mem_map_of_mem (f := fun obj : Object => (obj.syms, obj.sections.length)) hobj
    rw [htab] at hmem
    obtain ⟨obj', hobj', heq⟩ := mem_map.mp hmem
    obtain ⟨hsyms, hlen⟩ := Prod.mk.inj heq
    rw [← hlen]
    exact h obj' hobj' s.1 (hsyms ▸ (of_mem_zip hs).1) hsec
  rcases step_error hout with hout | ⟨entry, -, hout⟩
  · exact orDie_ne_outside _ hout
  · cases hout

/-! ## The rule holds -/

/-- The linker's entry before anything is read. -/
def Linker.start (objs : List Object) (script : Script) (ehdrSize phentSize : UInt32) : Linker :=
  { objs := objs, script := script, ehdrSize := ehdrSize, phentSize := phentSize }

/-- Symbols resolve as the rule says when a name has two strong definitions, so that the link is
rejected, or every section number is in its table and every name is orderly. -/
theorem resolves_of_orderly (objs : List Object) (script : Script) (ehdrSize phentSize : UInt32)
    (h : TwoStrong (occurrences 0 objs) ∨ (InRange objs ∧ ∀ o ∈ occurrences 0 objs, o.2.isLocal = false →
      Orderly script (occurrences 0 objs) o.2.name)) :
    Resolves (Linker.start objs script ehdrSize phentSize) := by
  set ld := Linker.start _ _ _ _ with hld
  have hrej : (∃ e, collectSymbols 0 ld.syms ld.objs = .error e) ↔
      ∃ name, 2 ≤ (strongs (sharing name (occurrences 0 objs))).length :=
    collectSymbols_error_iff _
  by_cases htwo : TwoStrong (occurrences 0 objs)
  · -- the link is rejected and nothing is left to resolve
    obtain ⟨name, hnm⟩ := htwo
    obtain ⟨e, he⟩ := hrej.mpr ⟨name, two_le_sharing hnm⟩
    have hdie : ldLayout ld = .error (.die e) := by
      rw [ldLayout, he]
      rfl
    refine ⟨⟨fun _ => ⟨name, hnm⟩, fun _ => ⟨e, he⟩⟩, ?_, fun ld' hrun => ?_⟩
    · rw [hdie]
      nofun
    · rw [hdie] at hrun
      cases hrun
  obtain ⟨hin, hall⟩ := h.resolve_left htwo
  refine ⟨⟨fun hreject => ?_, fun htwo' => absurd htwo' htwo⟩, hin.reads, fun ld' hrun q hq hglb => ?_⟩
  · obtain ⟨name, hmany⟩ := hrej.mp hreject
    obtain ⟨o, ho, hglb, rfl⟩ := exists_global_of_two_le hmany
    rw [sharing_eq_globals (hall o ho hglb).front] at hmany
    exact ⟨_, hmany⟩
  obtain ⟨g, hg, hout⟩ := ldLayout_resolution rfl hrun hq hglb
  refine ⟨g, hg, hout.trans ?_⟩
  obtain ⟨syms, objs', p, secs, syms', hcll, hsecs, -, hobjs, -⟩ := ldLayout_ok hrun
  have hlen : ld'.objs.length = ld.objs.length := by
    rw [hobjs]
    simpa using congrArg length (layout_table hcll hsecs)
  have ho : q.1 ∈ occurrences 0 ld.objs := by
    obtain ⟨syms, hlaid⟩ := ldLayout_laidOut rfl hrun
    rw [← hlaid.occs]
    exact mem_map_of_mem hq
  have hord : Orderly ld.script (occurrences 0 ld.objs) q.1.2.name := hall q.1 ho hglb
  rw [sharing_eq_globals hord.front]
  refine hord.outcome_eq _ rfl Linker.cursors_of_not_assigns fun o ho => ?_
  have := mem_occurrences _ ho
  omega

/-! ## A weak definition behind a strong one -/

/-- An object with one function in its only section. -/
def oneFunction (name : Text) (binding : Nat) : Object where
  sections := [⟨[], 0, 0, [], 0, 1, 0, false⟩,
    ⟨".text".toList, shtProgbits, 6, [0x4e, 0x71, 0x4e, 0x75], 4, 2, 0, false⟩]
  syms := [⟨name, 0, 4, 1, binding, 2⟩]

/-- The strong definition of `_start` comes last. -/
theorem strong_behind_weak_resolves : ∃ script, ldDefaultScript = .ok script ∧ Resolves (Linker.start
        [oneFunction "_start".toList stbWeak, oneFunction "_start".toList stbGlobal] script 0 0) := by
  obtain ⟨script, hscript, -⟩ := exists_ok (x := ldDefaultScript) (q := fun _ => true) (by decide +kernel)
  refine ⟨script, hscript, resolves_of_orderly _ script 0 0 (.inr ⟨?_, ?_⟩)⟩
  · intro obj hobj isym hisym _
    fin_cases hobj <;> cases mem_singleton.mp hisym <;> decide
  intro o ho _
  have hname : o.2.name = "_start".toList := by fin_cases ho <;> rfl
  rw [hname]
  refine ⟨?_, fun d hd => ?_, ?_⟩
  · decide
  · cases hd
    rw [if_neg (by decide)]
    decide
  · decide

def misresolved (ld ld' : Linker) : Bool :=
  (places 0 ld'.objs).any fun q =>
    !q.1.2.isLocal && (ld'.syms[q.2]?.map Symbol.resolution !=
      some (rule ld'.objs (cursorsTo q.1.2.name ld.assigned) (globals q.1.2.name (occurrences 0 ld.objs))))

theorem not_resolves_of_misresolved (h : ldLayout ld = .ok ld')
    (hbad : misresolved ld ld' = true) : ¬ Resolves ld := by
  intro hres
  obtain ⟨q, hq, hbad⟩ := any_eq_true.mp hbad
  rw [Bool.and_eq_true, bne_iff_ne] at hbad
  obtain ⟨g, hg, hrule⟩ := hres.resolves ld' h q hq (by simpa using hbad.1)
  refine hbad.2 ?_
  rw [hg, Option.map_some, hrule]

/-- `_start` has a strong definition in the first object and a weak one in the second, and resolves
to the weak one. -/
theorem weak_overwrites_strong : ∃ script, ldDefaultScript = .ok script ∧ ¬ Resolves (Linker.start
        [oneFunction "_start".toList stbGlobal, oneFunction "_start".toList stbWeak] script 0 0) := by
  obtain ⟨script, hscript, hbad⟩ := exists_ok (x := ldDefaultScript) (q := fun script =>
      let ld := Linker.start
        [oneFunction "_start".toList stbGlobal, oneFunction "_start".toList stbWeak] script 0 0
      (ldLayout ld).toOption.any (misresolved ld)) (by decide +kernel)
  obtain ⟨ld', hld', hbad⟩ := exists_ok hbad
  exact ⟨script, hscript, not_resolves_of_misresolved hld' hbad⟩

theorem local_conflicts_with_global (script : Script) : ¬ Resolves (Linker.start
      [oneFunction "f".toList stbLocal, oneFunction "f".toList stbGlobal] script 0 0) := by
  intro hres
  obtain ⟨name, hnm⟩ := hres.rejects.mp ⟨_, rfl⟩
  have hone : (globals name [(0, ⟨"f".toList, 0, 4, 1, stbLocal, 2⟩),
      (1, ⟨"f".toList, 0, 4, 1, stbGlobal, 2⟩)]).length ≤ 1 := by
    rw [globals, filter_cons_of_neg (by simp [InputSym.isLocal, stbLocal])]
    exact length_filter_le ..
  have hle : (strongs (globals name (occurrences 0
      [oneFunction "f".toList stbLocal, oneFunction "f".toList stbGlobal]))).length ≤ 1 :=
    (length_filter_le ..).trans hone
  exact absurd (hnm.trans hle) (by decide)

end Skjegg.Ld
