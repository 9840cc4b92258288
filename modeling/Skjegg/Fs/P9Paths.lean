import Skjegg.Fs.P9Server

/-!
# Relative paths and host paths

A relative path is components joined by separators. A step of a walk keeps the form as long as no
copy is cut short. A rename does not check its name, so the name has to be a relative path.
-/

namespace Skjegg.Fs

open Skjegg.Lib List Option List

/-! ## Paths -/

/-- A name that leads from a directory to one of its entries. -/
structure Component (c : CStr) : Prop where
  ne_nil : c ≠ []
  ne_dot : c ≠ dot
  ne_dotdot : c ≠ dotdot
  no_slash : slash ∉ c

def relPath (comps : List CStr) : CStr := [slash].intercalate comps

def IsRel (path : CStr) : Prop := ∃ comps, (∀ c ∈ comps, Component c) ∧ path = relPath comps

def UnderRoot (root path : CStr) : Prop :=
  ∃ comps : List CStr, (∀ c ∈ comps, Component c) ∧ path = root ++ comps.flatMap (slash :: ·)

/-- The host path of `rel` is not cut. -/
def Fits (root rel : CStr) : Prop := rel = [] ∨ root.length + 1 + rel.length < srvPathmax

theorem relPath_cons_cons (c d : CStr) (comps : List CStr) :
    relPath (c :: d :: comps) = c ++ slash :: relPath (d :: comps) := by
  simp [relPath, intercalate]

variable {comps : List CStr} {p path rel root : CStr}

theorem slash_cons_relPath (h : comps ≠ []) : slash :: relPath comps = comps.flatMap (slash :: ·) := by
  induction comps with
  | nil => exact absurd rfl h
  | cons c comps ih =>
    cases comps with
    | nil => simp [relPath, intercalate]
    | cons d comps =>
      rw [relPath_cons_cons, flatMap_cons, ← ih (cons_ne_nil d _)]
      rfl

theorem relPath_append {more : List CStr} (h : comps ≠ []) (hmo : more ≠ []) :
    relPath (comps ++ more) = relPath comps ++ slash :: relPath more := by
  apply cons_injective (a := slash)
  rw [slash_cons_relPath (by simp [h]), ← cons_append, slash_cons_relPath h,
    slash_cons_relPath hmo, flatMap_append]

theorem relPath_eq_nil_iff (h : ∀ c ∈ comps, Component c) : relPath comps = [] ↔ comps = [] := by
  constructor
  · intro hnil
    cases comps with
    | nil => rfl
    | cons c comps =>
      have hc := (h c mem_cons_self).ne_nil
      have hfla := slash_cons_relPath (cons_ne_nil c comps)
      rw [hnil, flatMap_cons, cons_append, cons.injEq] at hfla
      exact absurd (append_eq_nil_iff.mp hfla.2.symm).1 hc
  · rintro rfl
    rfl

theorem isRel_nil : IsRel [] := ⟨[], by simp, rfl⟩

theorem Component.isRel {c : CStr} (h : Component c) : IsRel c :=
  ⟨[c], by simpa using h, by simp [relPath, intercalate]⟩

theorem IsRel.join {q : CStr} (hp : IsRel p) (hq : IsRel q) (hpne : p ≠ []) (hqne : q ≠ []) :
    IsRel (p ++ slash :: q) := by
  obtain ⟨comps, hcmp, rfl⟩ := hp
  obtain ⟨more, hmo, rfl⟩ := hq
  rw [ne_eq, relPath_eq_nil_iff hcmp] at hpne
  rw [ne_eq, relPath_eq_nil_iff hmo] at hqne
  refine ⟨comps ++ more, ?_, (relPath_append hpne hqne).symm⟩
  intro c hc
  exact (mem_append.mp hc).elim (hcmp c) (hmo c)

/-! ### The last separator -/

theorem strrchrSlash_eq_none_iff : strrchrSlash p = none ↔ slash ∉ p := by
  induction p with
  | nil => simp [strrchrSlash]
  | cons c cs ih =>
    rw [strrchrSlash]
    cases hcs : strrchrSlash cs with
    | none =>
      have hnot := ih.mp hcs
      by_cases hc : c = slash
      · simp [hc]
      · simp [hc, hnot, Ne.symm hc]
    | some ab =>
      have hmem : slash ∈ cs := by
        by_contra hnot
        rw [ih.mpr hnot] at hcs
        cases hcs
      simp [hmem]

theorem strrchrSlash_append {a b : CStr} (hb : slash ∉ b) :
    strrchrSlash (a ++ slash :: b) = some (a, b) := by
  induction a with
  | nil => rw [nil_append, strrchrSlash, strrchrSlash_eq_none_iff.mpr hb, if_pos rfl]
  | cons c a ih => rw [cons_append, strrchrSlash, ih]

theorem strrchrSlash_eq_some {before after : CStr}
    (h : strrchrSlash p = some (before, after)) : p = before ++ slash :: after := by
  induction p generalizing before with
  | nil => cases h
  | cons c cs ih =>
    rw [strrchrSlash] at h
    cases hcs : strrchrSlash cs with
    | none =>
      rw [hcs] at h
      by_cases hc : c = slash
      · simp only [if_pos hc, some.injEq, Prod.mk.injEq] at h
        rw [hc, ← h.1, ← h.2, nil_append]
      · simp only [if_neg hc] at h
        cases h
    | some ab =>
      rw [hcs] at h
      simp only [some.injEq, Prod.mk.injEq] at h
      have hcs' : cs = ab.1 ++ slash :: after := ih (by rw [hcs, ← h.2])
      rw [hcs', ← h.1, cons_append]

theorem IsRel.cases_last (h : IsRel p) :
    p = [] ∨ Component p ∨ ∃ q c, IsRel q ∧ q ≠ [] ∧ Component c ∧ p = q ++ slash :: c := by
  obtain ⟨comps, hcmp, rfl⟩ := h
  rcases eq_nil_or_concat comps with rfl | ⟨front, c, rfl⟩
  · exact .inl rfl
  rw [concat_eq_append] at hcmp ⊢
  have hc : Component c := hcmp c (by simp)
  have hone : relPath [c] = c := by simp [relPath, intercalate]
  have hfro : ∀ d ∈ front, Component d := fun d hd => hcmp d (by simp [hd])
  cases hf : front with
  | nil => exact .inr (.inl (by rw [nil_append, hone]; exact hc))
  | cons d front' =>
    have hne : front ≠ [] := by simp [hf]
    refine .inr (.inr ⟨relPath _, c, ⟨front, hfro, rfl⟩, ?_, hc, ?_⟩)
    · rwa [ne_eq, relPath_eq_nil_iff hfro]
    · rw [← hf, relPath_append hne (cons_ne_nil c []), hone]

theorem IsRel.before {before after : CStr} (h : IsRel p)
    (hls : strrchrSlash p = some (before, after)) : IsRel before ∧ before ≠ [] := by
  rcases h.cases_last with rfl | hc | ⟨q, c, hq, hqne, hc, rfl⟩
  · cases hls
  · rw [strrchrSlash_eq_none_iff.mpr hc.no_slash] at hls
    cases hls
  · rw [strrchrSlash_append hc.no_slash, some.injEq, Prod.mk.injEq] at hls
    exact hls.1 ▸ ⟨hq, hqne⟩

/-! ### Host paths -/

theorem hostPath_of_fits (hro : root.length < srvPathmax) (h : Fits root rel) :
    hostPath root rel srvPathmax = if rel = [] then root else root ++ slash :: rel := by
  have hcut : root.take (srvPathmax - 1) = root := take_of_length_le (by omega)
  unfold hostPath
  rw [if_neg (by decide)]
  simp only [hcut]
  rcases h with rfl | hft
  · simp
  by_cases hrel : rel = []
  · simp [hrel]
  · have htl : rel.take (srvPathmax - 1 - (root.length + 1)) = rel := take_of_length_le (by omega)
    rw [if_pos ⟨hrel, by omega⟩, if_neg hrel, htl]

theorem hostPath_underRoot (hro : root.length < srvPathmax)
    (h : Fits root rel) (hrel : IsRel rel) : UnderRoot root (hostPath root rel srvPathmax) := by
  obtain ⟨comps, hcmp, rfl⟩ := hrel
  rw [hostPath_of_fits hro h]
  refine ⟨comps, hcmp, ?_⟩
  split
  case isTrue hnil => rw [(relPath_eq_nil_iff hcmp).mp hnil, flatMap_nil, append_nil]
  case isFalse hne =>
    rw [relPath_eq_nil_iff hcmp] at hne
    rw [slash_cons_relPath hne]

theorem underRoot_root (root : CStr) : UnderRoot root root := ⟨[], by simp, by simp⟩

theorem UnderRoot.entry {name : CStr} (h : UnderRoot root path) (hnm : Component name) :
    UnderRoot root (path ++ slash :: name) := by
  obtain ⟨comps, hcmp, rfl⟩ := h
  refine ⟨comps ++ [name], ?_, by simp⟩
  intro c hc
  rcases mem_append.mp hc with hc | hc
  · exact hcmp c hc
  · exact mem_singleton.mp hc ▸ hnm

/-! ## Steps -/

def joined (rel name : CStr) : CStr :=
  if rel = [] then name else rel ++ slash :: name

def StepFits (root rel name : CStr) : Prop := Component name → Fits root (joined rel name)

theorem Fits.of_length_le {q : CStr} (h : Fits root q) (hle : p.length ≤ q.length) : Fits root p := by
  rcases h with rfl | h
  · exact .inl (eq_nil_of_length_eq_zero (by simpa using hle))
  · exact .inr (by omega)

theorem Fits.snprintf_eq (h : Fits root p) : snprintf srvPathmax p = p := by
  apply take_of_length_le
  rcases h with rfl | h
  · exact Nat.zero_le _
  · omega

theorem pathStep_isRel {rel' name : CStr} (hrel : IsRel rel) (hft : Fits root rel)
    (hst : StepFits root rel name) (h : pathStep rel name = some rel') : IsRel rel' ∧ Fits root rel' := by
  unfold pathStep at h
  split at h
  case isTrue => exact some.inj h ▸ ⟨hrel, hft⟩
  case isFalse hsy =>
    split at h
    case isTrue => cases h
    case isFalse hsla =>
      split at h
      case isTrue hup =>
        split at h
        case isTrue => cases h
        case isFalse =>
          split at h
          case h_1 before after hls =>
            have hlen := congrArg length (strrchrSlash_eq_some hls)
            rw [length_append] at hlen
            exact some.inj h ▸ ⟨(hrel.before hls).1, hft.of_length_le (by omega)⟩
          case h_2 => exact some.inj h ▸ ⟨isRel_nil, .inl rfl⟩
      case isFalse hup =>
        have hnm : Component name := ⟨fun h0 => hsy (.inl h0), fun h0 => hsy (.inr h0), hup, hsla⟩
        have hft' := hst hnm
        unfold joined at hft'
        split at h
        case isTrue hro =>
          rw [if_pos hro] at hft'
          rw [hft'.snprintf_eq] at h
          exact some.inj h ▸ ⟨hnm.isRel, hft'⟩
        case isFalse hro =>
          rw [if_neg hro] at hft'
          have hcut : snprintf (srvPathmax - rel.length) (slash :: name) = slash :: name := by
            apply take_of_length_le
            rcases hft' with h0 | h0
            · exact absurd (append_eq_nil_iff.mp h0).1 hro
            · rw [length_append] at h0
              omega
          rw [hcut] at h
          exact some.inj h ▸ ⟨hrel.join hnm.isRel hro hnm.ne_nil, hft'⟩

def sibling (path newname : CStr) : CStr :=
  match strrchrSlash path with
  | some (before, _) => before ++ slash :: newname
  | none => newname

theorem renamed_eq_sibling {newname : CStr} (hpa : Fits root path)
    (h : Fits root (sibling path newname)) : renamed path newname = sibling path newname := by
  unfold sibling at h
  unfold renamed sibling
  rw [hpa.snprintf_eq]
  cases hls : strrchrSlash _ with
  | none =>
    simp only [hls] at h
    exact h.snprintf_eq
  | some parts =>
    simp only [hls] at h
    rcases h with h0 | h0
    · exact absurd h0 (by simp)
    · rw [length_append, length_cons] at h0
      simp only [snprintf]
      rw [take_of_length_le (by omega)]

theorem isRel_sibling {newname : CStr} (hpa : IsRel path) (hnm : IsRel newname)
    (hne : newname ≠ []) : IsRel (sibling path newname) := by
  unfold sibling
  split
  case h_1 before after hls =>
    have hbef := hpa.before hls
    exact hbef.1.join hnm hbef.2 hne
  case h_2 => exact hnm

end Skjegg.Fs
