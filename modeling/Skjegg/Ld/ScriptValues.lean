import Skjegg.Ld.Resolve

/-!
# The value of a symbol that the script assigns

At the end of the layout a symbol that the objects only refer to has the value of the last assignment
carried out to it. An assignment that is moved over bytes gives it another address than the one at
which it is written.
-/

namespace Skjegg.Ld

open List

variable {syms : List Symbol} {name target : Text} {cursor : UInt32} {ld ld' : Linker}
  {objs : List Object} {p p' : Placing} {before rest secs' : List OutputSec} {os : OutputSec}
  {items : List Item} {src : Text} {sc : Script} {ehdrSize phentSize : UInt32}

/-! ## Assignments and the entry of a name -/

def assigned (name : Text) (cursor : UInt32) : Option Symbol → Symbol
  | some g => g.assign cursor
  | none => { name := name, value := cursor, defined := true, weak := false, objIdx := -1, secIdx := -1 }

theorem lookup_assignSym : lookup (assignSym syms target cursor) name =
    if target = name then some (assigned name cursor (lookup syms name)) else lookup syms name := by
  cases hfd : symFind syms name with
  | some e =>
    obtain ⟨hfd', hent⟩ := assignSym_known hfd target cursor
    obtain ⟨he, -⟩ := symFind_eq_some_iff.mp hfd
    rw [lookup_of_symFind hfd', hent, lookup_of_symFind hfd, getElem?_eq_getElem he]
    split
    · rfl
    · rfl
  | none =>
    rw [lookup_eq_none_iff.mpr hfd]
    unfold assignSym
    split
    · next i hi =>
      have hne : target ≠ name := by
        rintro rfl
        rw [hfd] at hi
        cases hi
      rw [if_neg hne, lookup_eq_none_iff]
      rw [symFind_congr (map_name_modify _ i (·.assign _) fun _ => rfl), hfd]
    · rw [lookup_snoc, lookup_eq_none_iff.mpr hfd, Option.none_or]
      by_cases hname : target = name
      · rw [if_pos hname, if_pos hname, ← hname]
        rfl
      · rw [if_neg hname, if_neg hname]

theorem cursorsTo_append (name : Text) (as bs : List (Text × UInt32)) :
    cursorsTo name (as ++ bs) = cursorsTo name as ++ cursorsTo name bs := by
  rw [cursorsTo, filter_append, map_append]
  rfl

theorem lookup_assignAll (as : List (Text × UInt32)) : lookup (assignAll syms as) name =
    (cursorsTo name as).foldl (fun g cursor => some (assigned name cursor g)) (lookup syms name) := by
  induction as using reverseRecOn with
  | nil => rfl
  | append_singleton as a ih =>
    have hlast : assignAll syms (as ++ [a]) = assignSym (assignAll syms as) a.1 a.2 := by
      rw [assignAll, foldl_append]
      rfl
    rw [hlast, lookup_assignSym, cursorsTo_append, foldl_append, ← ih]
    by_cases hname : a.1 = name
    · rw [if_pos hname]
      simp [cursorsTo, hname]
    · rw [if_neg hname]
      simp [cursorsTo, hname]

/-- The value of a name that is defined. -/
def valueOf (syms : List Symbol) (name : Text) : Option UInt32 :=
  (lookup syms name).bind fun g => if g.defined then some g.value else none

theorem valueOf_assignAll (h : valueOf syms name = none) (as : List (Text × UInt32)) :
    valueOf (assignAll syms as) name = (cursorsTo name as).getLast? := by
  rw [valueOf, lookup_assignAll]
  cases cursorsTo name as using reverseRecOn with
  | nil => exact h
  | append_singleton cursors cursor =>
    rw [foldl_append, getLast?_concat]
    cases foldl _ _ cursors <;> rfl

theorem objIdx_of_assigned (hnone : lookup syms name = none) {as : List (Text × UInt32)} {g : Symbol}
    (h : lookup (assignAll syms as) name = some g) : g.objIdx < 0 := by
  rw [lookup_assignAll, hnone] at h
  generalize cursorsTo name as = cursors at h
  induction cursors using reverseRecOn generalizing g with
  | nil => cases h
  | append_singleton cursors cursor ih =>
    rw [foldl_append] at h
    cases hprev : foldl (fun g cursor => some (assigned name cursor g)) none cursors with
    | none =>
      rw [hprev] at h
      cases h
      exact (by decide : (-1 : Int) < 0)
    | some g' =>
      have hneg := ih hprev
      rw [hprev] at h
      cases h
      exact hneg

/-! ## The table at the end -/

/-- The objects only refer to the name, and no local symbol has it. -/
def OnlyReferred (objs : List Object) (name : Text) : Prop :=
  ∀ o ∈ occurrences 0 objs, o.2.name = name → o.2.isDef = false ∧ o.2.isLocal = false

theorem written_eq_none {o : Occ} (hdef : o.2.isDef = false) (hlocal : o.2.isLocal = false) :
    written objs o = none := by
  have hundef : o.2.shndx = shnUndef := by simpa [InputSym.isDef] using hdef
  have hbind : o.2.binding ≠ stbLocal := by simpa [InputSym.isLocal] using hlocal
  unfold written
  split
  · rfl
  · rw [if_neg (fun h => hbind h.1), if_neg (fun h => h.1 hundef)]

theorem mem_sharing {o : Occ} {occs : List Occ} (h : o ∈ sharing name occs) : o ∈ occs ∧ o.2.name = name := by
  have hmem : o ∈ occs.filter (·.2.name = name) := by
    unfold sharing at h
    split at h
    · cases h
    · next hocc =>
      rw [hocc]
      rcases mem_cons.mp h with rfl | h
      · exact mem_cons_self
      · exact mem_cons_of_mem _ (mem_filter.mp h).1
  obtain ⟨ho, hname⟩ := mem_filter.mp hmem
  exact ⟨ho, of_decide_eq_true hname⟩

theorem foldl_resolveOcc_self {occs : List Occ} {g : Symbol}
    (h : g.objIdx < 0 ∨ ∀ o ∈ occs, written objs o = none) :
    occs.foldl (fun g o => resolveOcc objs o g) g = g := by
  induction occs with
  | nil => rfl
  | cons o occs ih =>
    have hself : resolveOcc objs o g = g := by
      unfold resolveOcc
      split
      · rfl
      · next hpos => rw [(h.resolve_left hpos) o mem_cons_self]; rfl
    rw [foldl_cons, hself]
    exact ih (h.imp_right fun hw o ho => hw o (mem_cons_of_mem _ ho))

theorem map_name_resolve (objs : List Object) (pairs : List (Occ × Nat)) (syms : List Symbol) :
    (pairs.foldl (fun syms q => syms.modify q.2 (resolveOcc objs q.1)) syms).map Symbol.name =
      syms.map Symbol.name := by
  induction pairs generalizing syms with
  | nil => rfl
  | cons q pairs ih =>
    rw [foldl_cons, ih, map_name_modify]
    intro g
    unfold resolveOcc
    split <;> rfl

/-- The last assignment carried out settles the name. -/
theorem ldLayout_valueOf (hsy : ld.syms = []) (h : ldLayout ld = .ok ld')
    (hrefs : OnlyReferred ld.objs name) : valueOf ld'.syms name = (cursorsTo name ld.assigned).getLast? := by
  obtain ⟨syms, hcol, hoccs, hsyms⟩ := ldLayout_laidOut hsy h
  have hent := hcol.entry name
  rw [hoccs] at hent
  -- the symbols of the objects leave the name undefined
  have hundef : valueOf syms name = none := by
    unfold valueOf
    cases hlook : lookup syms name with
    | none => rfl
    | some g =>
      rw [hlook] at hent
      have hdef := (entryOf_ok hent).1.defined_eq
      rw [any_isDef_eq_false (filter_eq_nil_iff.mpr fun o ho => ?_)] at hdef
      · rw [Option.bind_some, hdef]
        rfl
      · obtain ⟨ho, hname⟩ := mem_sharing ho
        rw [(hrefs o ho hname).1]
        exact Bool.false_ne_true
  -- and the last loop does not write to it
  rw [← valueOf_assignAll hundef, valueOf, valueOf, hsyms]
  congr 1
  have hnames := symFind_congr (map_name_resolve ld'.objs (places 0 ld'.objs) (assignAll syms ld.assigned)) name
  cases hfd : symFind (assignAll syms ld.assigned) name with
  | none => rw [lookup_eq_none_iff.mpr hfd, lookup_eq_none_iff.mpr (hnames.trans hfd)]
  | some e =>
    rw [lookup_of_symFind hfd, lookup_of_symFind (hnames.trans hfd), foldl_modify_getElem?]
    obtain ⟨he, -⟩ := symFind_eq_some_iff.mp hfd
    rw [getElem?_eq_getElem he, Option.map_some, foldl_resolveOcc_self]
    cases hold : symFind syms name with
    | none =>
      have hlook := (lookup_of_symFind hfd).trans (getElem?_eq_getElem he)
      exact .inl (objIdx_of_assigned (lookup_eq_none_iff.mpr hold) hlook)
    | some e' =>
      obtain rfl : e = e' := by
        rw [(assignAll_known hold _).1] at hfd
        exact (Option.some.inj hfd).symm
      rw [hcol.place _ _ hold, hoccs]
      refine .inr fun o ho => ?_
      obtain ⟨ho, hname⟩ := mem_sharing ho
      exact written_eq_none (hrefs o ho hname).1 (hrefs o ho hname).2

/-! ## The section the assignment stands in -/

theorem layoutSecs_append {r : Placing × List OutputSec} (h : layoutSecs p (before ++ rest) = .ok r) :
    ∃ p1 before' r', layoutSecs p before = .ok (p1, before') ∧ layoutSecs p1 rest = .ok r' ∧
      scriptAssigns p (before ++ rest) = scriptAssigns p before ++ scriptAssigns p1 rest := by
  induction before generalizing p r with
  | nil => exact ⟨p, [], r, rfl, h, rfl⟩
  | cons os before ih =>
    obtain ⟨⟨p1, os1⟩, hfst, h⟩ := step_ok h
    obtain ⟨r1, hrs, h⟩ := step_ok h
    obtain ⟨p2, before', r', hb, hr, has⟩ := ih hrs
    refine ⟨p2, os1 :: before', r', ?_, hr, ?_⟩
    · rw [layoutSecs, hfst]
      show (layoutSecs p1 before >>= _) = _
      rw [hb]
      rfl
    · rw [cons_append, scriptAssigns, scriptAssigns, hfst]
      dsimp only
      rw [has, append_assoc]

theorem cursorsTo_made (hos : os.Records items) (hsz : os.size = 0) {m : Mark}
    (hm : (marks items).filter (·.name = name) = [m]) :
    cursorsTo name (made os objs) =
      if m.specs ≤ os.patterns.length then [addrAfter os objs (os.patterns.take m.specs)] else [] := by
  rw [made_eq hos hsz, cursorsTo, filter_map, filter_filter, map_map]
  have hswap : ((marks items).filter fun m => ((fun a : Text × UInt32 => decide (a.1 = name)) ∘
        fun m => (m.name, addrAfter os objs (os.patterns.take m.specs))) m &&
          decide (m.specs ≤ os.patterns.length)) =
      ((marks items).filter (·.name = name)).filter (·.specs ≤ os.patterns.length) := by
    rw [filter_filter]
    exact filter_congr fun m _ => Bool.and_comm ..
  rw [hswap, hm, filter_singleton]
  by_cases hle : m.specs ≤ os.patterns.length
  · simp [hle]
  · simp [hle]

theorem filter_marks_eq {m : Mark} (hos : os.Records items) (hm : m ∈ marks items) (hname : m.name = name)
    (hone : os.assigns.countP (·.name = name) ≤ 1) : (marks items).filter (·.name = name) = [m] := by
  rw [hos.assigns, countP_map, countP_eq_length_filter] at hone
  have hmem : m ∈ (marks items).filter (·.name = name) := mem_filter.mpr ⟨hm, decide_eq_true hname⟩
  change ((marks items).filter (·.name = name)).length ≤ 1 at hone
  cases hl : (marks items).filter (·.name = name) with
  | nil =>
    rw [hl] at hmem
    cases hmem
  | cons m' l =>
    rw [hl, length_cons] at hone
    rw [hl, length_eq_zero_iff.mp (by omega : l.length = 0)] at hmem
    rw [length_eq_zero_iff.mp (by omega : l.length = 0), mem_singleton.mp hmem]

/-- The state in which the section `os`, behind `before`, is laid out, and its region. -/
def Linker.LaysOut (ld : Linker) (before : List OutputSec) (os : OutputSec) (p : Placing)
    (region : Option Nat) : Prop :=
  (∃ syms objs before', collectSymbols 0 ld.syms ld.objs = .ok (syms, objs) ∧
    layoutSecs (ld.placing syms objs) before = .ok (p, before')) ∧ regionOf p.regions os = .ok region

/-- An object with a function `_start` and eight bytes in the section `name`. -/
def eightBytesIn (name : String) : Object where
  sections := [⟨[], 0, 0, [], 0, 1, 0, false⟩,
    ⟨".text".toList, shtProgbits, 6, [0x4e, 0x75], 2, 2, 0, false⟩,
    ⟨name.toList, shtNobits, 3, [], 8, 4, 0, false⟩]
  syms := [⟨"_start".toList, 0, 2, 1, stbGlobal, 2⟩]

def linkDefault (objs : List Object) : Except LdError Linker := do
  let sc ← orDie ldDefaultScript
  ldLayout (Linker.start objs sc 0 0)

/-- `__bss_end` lies at or above the end of every input section placed in `.bss`. -/
def BssEndCovers (ld : Linker) : Prop :=
  ∀ g ∈ ld.syms, g.name = "__bss_end".toList → ∀ os ∈ ld.script.sections, os.name = ".bss".toList →
      ∀ obj ∈ ld.objs, ∀ isec ∈ obj.sections, isec.matched ∧ os.vaddr ≤ isec.assignedVaddr ∧
            isec.assignedVaddr + isec.size ≤ os.endAddr →
          isec.assignedVaddr + isec.size ≤ g.value

instance (ld : Linker) : Decidable (BssEndCovers ld) :=
  inferInstanceAs (Decidable (∀ g ∈ ld.syms, _ → ∀ os ∈ ld.script.sections, _ →
    ∀ obj ∈ ld.objs, ∀ isec ∈ obj.sections, _ → _))

end Skjegg.Ld
