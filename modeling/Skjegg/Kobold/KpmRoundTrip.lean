import Skjegg.Kobold.KpmFuncs

/-!
# A module through its text

The lines of a written module, block by block: each block is read as one item, or refused.  A module
then reads back with the same functions exactly when the text carries every part of it.
-/

namespace Skjegg.Kobold.Kpm

open Skjegg.Lib Skjegg.Libc List

variable {B : Backend}

/-! ## Blocks -/

/-- The reader on some printed lines, with any lines behind: it goes over them and adds functions
that `R` admits, or fails and `R` admits none. -/
structure Reads (B : Backend) (raw : List CStr) (R : List Func → Prop) : Prop where
  clean : ∀ line ∈ raw, 0 ∉ line ∧ 10 ∉ line
  read : ∀ m pos rest, (∃ fns, R fns ∧ ∃ m' : Module, m'.funcs = m.funcs ++ fns ∧
      readItems B m pos 0 (raw.map trimLine ++ rest) = readItems B m' (pos + raw.length) 0 rest) ∨
    ((∀ fns, ¬R fns) ∧ ∃ e, readItems B m pos 0 (raw.map trimLine ++ rest) = .error e)

/-- A block without functions that is read when `p` holds. -/
def Plain (p : Prop) (fns : List Func) : Prop := p ∧ fns = []

theorem Reads.nil : Reads B [] (Plain True) := by
  refine ⟨fun _ h => absurd h not_mem_nil, fun m pos _ => .inl ⟨[], ⟨trivial, rfl⟩, m, ?_, rfl⟩⟩
  rw [append_nil]

variable {lines raw : List CStr} {R : List Func → Prop} {α : Type} {d : Directive} {t : CStr}
  {imp : Import} {g : Global} {raw' : List CStr}

theorem Reads.append {R' S : List Func → Prop} (h : Reads B raw R)
    (h' : Reads B raw' R') (hS : ∀ fns, S fns ↔ ∃ a b, R a ∧ R' b ∧ fns = a ++ b) :
    Reads B (raw ++ raw') S := by
  refine ⟨forall_mem_append.mpr ⟨h.clean, h'.clean⟩, fun m pos rest => ?_⟩
  rw [map_append, append_assoc]
  rcases h.read m pos _ with ⟨a, ha, m1, hm1, heq⟩ | ⟨hno, herr⟩
  · rw [heq]
    rcases h'.read m1 _ _ with ⟨b, hb, m2, hm2, heq'⟩ | ⟨hno, herr⟩
    · refine .inl ⟨a ++ b, (hS _).mpr ⟨a, b, ha, hb, rfl⟩, m2, ?_, ?_⟩
      · rw [hm2, hm1, append_assoc]
      · rw [heq', length_append, add_assoc]
    · refine .inr ⟨fun fns hfns => ?_, herr⟩
      obtain ⟨_, b, _, hb, _⟩ := (hS fns).mp hfns
      exact hno b hb
  · refine .inr ⟨fun fns hfns => ?_, herr⟩
    obtain ⟨a, _, ha, _, _⟩ := (hS fns).mp hfns
    exact hno a ha

theorem Reads.plain_append {p : Prop}
    (h : Reads B raw (Plain p)) (h' : Reads B raw' R) : Reads B (raw ++ raw') fun fns => p ∧ R fns := by
  apply h.append h'
  intro fns
  constructor
  · rintro ⟨hp, hR⟩
    exact ⟨[], fns, ⟨hp, rfl⟩, hR, rfl⟩
  · rintro ⟨_, b, ⟨hp, rfl⟩, hR, rfl⟩
    exact ⟨hp, hR⟩

theorem Reads.congr {S : List Func → Prop} (h : Reads B raw R)
    (hS : ∀ fns, S fns ↔ R fns) : Reads B raw S := by
  have : S = R := funext fun fns => propext (hS fns)
  exact this ▸ h

theorem Reads.plain {p q : Prop} (h : Reads B raw (Plain p)) (hq : q ↔ p) : Reads B raw (Plain q) :=
  h.congr fun _ => and_congr_left' hq

variable {p : α → Prop} {f : α → List CStr} {xs : List α} {m : Module}

theorem reads_flatMap
    (h : ∀ x ∈ xs, Reads B (f x) (Plain (p x))) : Reads B (xs.flatMap f) (Plain (∀ x ∈ xs, p x)) := by
  induction xs with
  | nil => exact Reads.nil.plain (by simp)
  | cons x xs ih =>
    apply ((h x mem_cons_self).plain_append (ih fun y hy => h y (mem_cons_of_mem _ hy))).congr
    simp [Plain, and_assoc]

theorem readItems_skip (m : Module) (pos : Nat) (body rest : List CStr) :
    readItems B m pos body.length (body ++ rest) = readItems B m (pos + body.length) 0 rest := by
  induction body generalizing pos with
  | nil => rfl
  | cons line body ih => rw [length_cons, cons_append, readItems, ih, add_assoc, add_comm 1]

theorem reads_item (line : CStr) (body : List CStr)
    (clean : ∀ line ∈ raw, 0 ∉ line ∧ 10 ∉ line) (htrim : raw.map trimLine = line :: body)
    (h : ∀ m pos rest,
      (∃ fns, R fns ∧ ∃ m' : Module, readItem B m pos line (body ++ rest) = .ok (m', body.length) ∧
        m'.funcs = m.funcs ++ fns) ∨
      ((∀ fns, ¬R fns) ∧ ∃ e, readItem B m pos line (body ++ rest) = .error e)) : Reads B raw R := by
  refine ⟨clean, fun m pos rest => ?_⟩
  have hlen : raw.length = 1 + body.length := by
    rw [← length_map _, htrim, length_cons, add_comm]
  rw [htrim, cons_append, readItems]
  rcases h m pos _ with ⟨fns, hR, m', hitem, hm'⟩ | ⟨hno, e, herr⟩
  · refine .inl ⟨fns, hR, m', hm', ?_⟩
    rw [hitem]
    simp only
    rw [readItems_skip, hlen, add_assoc]
  · refine .inr ⟨hno, e, ?_⟩
    rw [herr]

theorem reads_line {line : CStr} {p : Prop} (hln : Line line) (h : ∀ m pos rest,
      (p ∧ ∃ m' : Module, readItem B m pos line rest = .ok (m', 0) ∧ m'.funcs = m.funcs) ∨
      (¬p ∧ ∃ e, readItem B m pos line rest = .error e)) : Reads B [line] (Plain p) := by
  apply reads_item _ [] (forall_mem_singleton.mpr hln.clean)
  · rw [map_singleton, hln.trimmed.trimLine]
  intro m pos rest
  rcases h m pos _ with ⟨hp, m', hok, hm'⟩ | ⟨hnot, herr⟩
  · refine .inl ⟨[], ⟨hp, rfl⟩, m', hok, ?_⟩
    rw [hm', append_nil]
  · exact .inr ⟨fun fns hfns => hnot hfns.1, herr⟩

theorem reads_blank : Reads B [[]] (Plain True) := by
  refine ⟨by simp, fun m pos _ => .inl ⟨[], ⟨trivial, rfl⟩, m, (append_nil _).symm, ?_⟩⟩
  rfl

theorem reads_group
    (h : ∀ x ∈ xs, Reads B (f x) (Plain (p x))) : Reads B (group xs f) (Plain (∀ x ∈ xs, p x)) := by
  unfold group
  split
  next hnil => exact Reads.nil.plain (by simp [hnil])
  next =>
    apply (reads_blank.plain_append (reads_flatMap h)).congr
    simp [Plain]

/-! ## Directives -/

section Directives

variable {pos : Nat} {rest : List CStr} {key : String} {ws : List CStr}

def KnownDirective (key : String) (d : Directive) : Prop :=
  IsName (text key) ∧ (text key).head? = some 46 ∧
    (directives.find? fun e => text e.1 = text key).map Prod.snd = some d

instance (d : Directive) : Decidable (KnownDirective key d) := inferInstanceAs (Decidable (_ ∧ _))

theorem KnownDirective.directiveOf (h : KnownDirective key d) {tail : CStr}
    (htl : tail.head?.all isBlank) : directiveOf (text key ++ tail) = some d := by
  rw [directiveOf_append h.1.isWord htl, h.2.2]

theorem KnownDirective.ne_nil (h : KnownDirective key d) (tail : CStr) : text key ++ tail ≠ [] :=
  append_ne_nil_of_left_ne_nil h.1.ne_nil tail

theorem KnownDirective.line (h : KnownDirective key d) (hws : ∀ w ∈ ws, IsName w) :
    Line (text key ++ spaced ws) := by
  apply line_spaced h.1 _ hws
  rw [h.2.1]
  decide

theorem reads_target (ht : IsName t) :
    Reads B [text ".target" ++ spaced [t]] (Plain (targetMismatch B t = none)) := by
  have hkey : KnownDirective ".target" .target := by decide
  have hws := forall_mem_singleton.mpr ht
  apply reads_line (hkey.line hws)
  intro m pos rest
  rw [readItem, if_neg (hkey.ne_nil _), hkey.directiveOf (head?_spaced _),
    tokenize_spaced_of_le hkey.1 hws (by simp [maxTokens])]
  simp only [readTarget]
  cases targetMismatch B t with
  | none => exact .inl ⟨rfl, _, rfl, rfl⟩
  | some msg => exact .inr ⟨by simp, _, rfl⟩

theorem reads_always (hkey : KnownDirective key d) (hws : ∀ w ∈ ws, IsName w)
    (h : ∀ m pos rest, ∃ m' : Module,
      readItem B m pos (text key ++ spaced ws) rest = .ok (m', 0) ∧ m'.funcs = m.funcs) :
    Reads B [text key ++ spaced ws] (Plain True) := by
  apply reads_line (hkey.line hws)
  intro m pos rest
  exact .inl ⟨trivial, h m pos _⟩

theorem reads_word (hkey : KnownDirective key d) (hd : d ∈ [.entry, .export, .uses])
    (hws : ∀ w ∈ ws, IsName w) : Reads B [text key ++ spaced ws] (Plain True) := by
  apply reads_always hkey hws
  intro m pos rest
  rw [readItem, if_neg (hkey.ne_nil _), hkey.directiveOf (head?_spaced _)]
  simp only [mem_cons, not_mem_nil, or_false] at hd
  rcases hd with rfl | rfl | rfl <;> exact ⟨_, rfl, rfl⟩

theorem isName_fingerprint (n : Nat) : ∀ w ∈ [text "fingerprint", decimalNat n], IsName w :=
  forall_mem_cons.mpr ⟨by decide, forall_mem_singleton.mpr (isName_decimalNat n)⟩

theorem reads_moduleLine (hnm : ∀ n, m.name = some n → IsName n) :
    Reads B [moduleLine m] (Plain True) := by
  have hkey : KnownDirective ".module" .module := by decide
  have hkind : ∀ kind names, IsName (text kind) →
      (moduleKind (text kind)).isSome → (∀ n ∈ names, IsName n) → names.length ≤ 1 →
      Reads B [text ".module" ++ spaced (text kind :: names)] (Plain True) := by
    intro kind names hk hso hnms hlen
    have hws := forall_mem_cons.mpr ⟨hk, hnms⟩
    apply reads_always hkey hws
    intro m pos rest
    rw [readItem, if_neg (hkey.ne_nil _), hkey.directiveOf (head?_spaced _),
      tokenize_spaced_of_le hkey.1 hws (by rw [length_cons]; unfold maxTokens; omega)]
    obtain ⟨k, hk'⟩ := Option.isSome_iff_exists.mp hso
    simp only [readModuleKind, hk']
    exact ⟨_, rfl, rfl⟩
  have hnms : ∀ n ∈ m.name.toList, IsName n := fun n hn => hnm n (Option.mem_toList.mp hn)
  have hlen : m.name.toList.length ≤ 1 := by cases m.name <;> simp
  unfold moduleLine
  cases m.kind with
  | object => exact hkind "object" _ (by decide) (by decide) hnms hlen
  | library => exact hkind "library" _ (by decide) (by decide) hnms hlen
  | executable =>
    exact hkind "executable" [] (by decide) (by decide) (fun _ h => absurd h not_mem_nil) (by decide)

theorem reads_file (f : CStr) : Reads B [text ".file" ++ 32 :: writeQuoted f] (Plain True) := by
  have hln : Line (text ".file" ++ 32 :: writeQuoted f) :=
    line_quoted (f := text ".file ") ⟨46, rfl, by decide, by decide⟩ (by decide +kernel) f
  apply reads_line hln
  intro m pos rest
  left
  exact ⟨trivial, _, rfl, rfl⟩

end Directives

/-! ## Blocks of several lines -/

theorem clean_block {header : CStr} {last : List CStr} (hhdr : Line header)
    (hlns : ∀ l ∈ lines, Line l) (hlast : ∀ l ∈ last, Line l) :
    ∀ line ∈ header :: (lines.map (indent ++ ·) ++ last), 0 ∉ line ∧ 10 ∉ line := by
  refine forall_mem_cons.mpr ⟨hhdr.clean, forall_mem_append.mpr ⟨forall_mem_map.mpr fun l hl => ?_,
    fun l hl => (hlast l hl).clean⟩⟩
  have hind : (0 : UInt8) ∉ indent ∧ (10 : UInt8) ∉ indent := by decide
  simp only [mem_append, not_or]
  exact ⟨⟨hind.1, (hlns l hl).no_nul⟩, hind.2, (hlns l hl).no_newline⟩

theorem trim_block {header : CStr} {last : List CStr} (hhdr : Line header)
    (hlns : ∀ l ∈ lines, Line l) (hlast : ∀ l ∈ last, Line l) :
    (header :: (lines.map (indent ++ ·) ++ last)).map trimLine = header :: (lines ++ last) := by
  have htrim : ∀ ls : List CStr, (∀ l ∈ ls, Line l) → ls.map trimLine = ls := by
    intro ls hls
    conv_rhs => rw [← map_id ls]
    exact map_congr_left fun l hl => (hls l hl).trimmed.trimLine
  have hind : (lines.map (indent ++ ·)).map trimLine = lines := by
    rw [map_map]
    conv_rhs => rw [← map_id lines]
    exact map_congr_left fun l hl => (hlns l hl).trimmed.trimLine_indent
  rw [map_cons, map_append, hind, htrim _ hlast, hhdr.trimmed.trimLine]

theorem line_end {key : String} (h : IsName (text key) ∧ (text key).head? ≠ some 59) :
    ∀ l ∈ [text key], Line l := by
  have hln := line_spaced h.1 h.2 fun _ h => absurd h not_mem_nil
  rw [spaced, flatMap_nil, append_nil] at hln
  exact forall_mem_singleton.mpr hln

/-! ### Interfaces -/

theorem skipInterface_lines (h : ∀ line ∈ lines, InterfaceLine line) (rest : List CStr) :
    skipInterface (lines.map trimLine ++ text ".endinterface" :: rest) = some (lines.length + 1) := by
  induction lines with
  | nil => rfl
  | cons line lines ih =>
    rw [map_cons, cons_append, skipInterface, (h _ mem_cons_self).no_end,
      ih fun l hl => h l (mem_cons_of_mem _ hl)]
    rfl

theorem reads_interface (h : ∀ line ∈ m.ifaceLines, InterfaceLine line) :
    Reads B (writeInterface m) (Plain True) := by
  unfold writeInterface
  split
  · have hkey : KnownDirective ".interface" .interface := by decide
    have hhdr := hkey.line (isName_fingerprint m.ifaceFp)
    have hlast : Line (text ".endinterface") := line_end (by decide) _ mem_cons_self
    have hblk : Reads B ((text ".interface" ++ spaced [text "fingerprint", decimalNat m.ifaceFp]) ::
        (m.ifaceLines ++ [text ".endinterface"])) (Plain True) := by
      apply reads_item _ _
      · have hlns : ∀ l ∈ m.ifaceLines, 0 ∉ l ∧ 10 ∉ l := fun l hl => ⟨(h l hl).no_nul, (h l hl).no_newline⟩
        exact forall_mem_cons.mpr
          ⟨hhdr.clean, forall_mem_append.mpr ⟨hlns, forall_mem_singleton.mpr hlast.clean⟩⟩
      · rw [map_cons, map_append, map_singleton, hhdr.trimmed.trimLine, hlast.trimmed.trimLine]
      intro m' pos rest
      left
      rw [readItem, if_neg (hkey.ne_nil _), hkey.directiveOf (head?_spaced _), append_assoc,
        singleton_append]
      simp only [readInterface, skipInterface_lines h]
      have hlen : (m.ifaceLines.map trimLine ++ [text ".endinterface"]).length =
          m.ifaceLines.length + 1 := by simp
      rw [hlen]
      exact ⟨[], ⟨trivial, rfl⟩, _, rfl, (append_nil _).symm⟩
    exact (reads_blank.plain_append hblk).congr fun _ => (true_and _).symm.to_iff
  · exact Reads.nil

/-! ### Imports -/

theorem SignatureOk.isName {paramCls : List CStr} {retCls : Option CStr} (h : SignatureOk paramCls retCls) :
    ∀ w ∈ writeSignature paramCls retCls, IsName w := by
  intro w hw
  unfold writeSignature at hw
  simp only [mem_append, mem_cons, not_mem_nil, or_false] at hw
  rcases hw with (rfl | hw) | rfl | rfl | rfl
  · decide
  · exact h.params w hw
  · decide
  · decide
  · cases hret : retCls with
    | none => decide
    | some c => exact h.ret c hret

theorem isName_method {me : Method} (hme : IsName me.name ∧ SignatureOk me.paramCls me.retCls) (i : Nat) :
    ∀ w ∈ [decimal i, me.name] ++ writeSignature me.paramCls me.retCls, IsName w :=
  forall_mem_cons.mpr ⟨isName_decimal i, forall_mem_cons.mpr ⟨hme.1, hme.2.isName⟩⟩

theorem readMethods_written {methods : List Method}
    (h : ∀ me ∈ methods, IsName me.name ∧ SignatureOk me.paramCls me.retCls) (pos j : Nat)
    (rest : List CStr) :
    ∃ ms, readMethods pos methods.length (methods.mapIdx (fun i => writeMethod (j + i)) ++ rest) =
      .ok ms := by
  induction methods generalizing pos j with
  | nil => exact ⟨[], rfl⟩
  | cons me methods ih =>
    have hnm : IsName (text ".method") := by decide
    have htok : tokenize (writeMethod j me) = text ".method" :: decimal j :: me.name ::
        (writeSignature me.paramCls me.retCls).take (maxTokens - 3) := by
      rw [writeMethod, tokenize_spaced hnm (isName_method (h me mem_cons_self) j)]
      rfl
    obtain ⟨ms, hms⟩ := ih (fun x hx => h x (mem_cons_of_mem _ hx)) (pos + 1) (j + 1)
    rw [mapIdx_from_cons, cons_append, length_cons, readMethods, htok]
    simp only [ne_eq, not_true_eq_false, if_false, hms]
    exact ⟨_, rfl⟩

theorem reads_typeImport (h : ImportOk imp) : Reads B ((text ".import" ++
        spaced [text "type", imp.name, text "methods", decimal imp.methods.length]) ::
        (imp.methods.mapIdx writeMethod).map (indent ++ ·))
      (Plain ((imp.methods.length : Int) ≤ kpmMaxCount)) := by
  have hkey : KnownDirective ".import" .import := by decide
  have hws : ∀ w ∈ [text "type", imp.name, text "methods", decimal imp.methods.length], IsName w := by
    simp only [forall_mem_cons, h.name, isName_decimal, not_mem_nil, false_imp_iff, implies_true, and_true, true_and]
    decide
  have hmethods : ∀ l ∈ imp.methods.mapIdx writeMethod, Line l := by
    intro l hl
    obtain ⟨i, hi, rfl⟩ := mem_mapIdx.mp hl
    exact line_spaced (by decide) (by decide) (isName_method (h.methods _ (getElem_mem hi)) i)
  have hlast : ∀ l ∈ ([] : List CStr), Line l := fun _ hl => absurd hl not_mem_nil
  rw [← append_nil ((imp.methods.mapIdx _).map _)]
  apply reads_item _ _
  · exact clean_block (hkey.line hws) hmethods hlast
  · exact trim_block (hkey.line hws) hmethods hlast
  intro m pos rest
  have hcnt : methodCount B 0 [text "methods", decimal imp.methods.length] = imp.methods.length := by
    have hnum : intOf B (decimal imp.methods.length) = imp.methods.length := intOf_decimal h.methods_int
    simp [methodCount, hnum]
  rw [readItem, if_neg (hkey.ne_nil _), hkey.directiveOf (head?_spaced _)]
  simp only [readImport, tokenize_spaced_of_le hkey.1 hws (by simp [maxTokens]),
    show importKind (text "type") = some .type by decide, hcnt]
  by_cases hmax : (imp.methods.length : Int) ≤ kpmMaxCount
  · left
    obtain ⟨ms, hms⟩ := readMethods_written h.methods _ 0 ([] ++ rest)
    simp only [zero_add] at hms
    rw [if_neg (by omega), Int.toNat_natCast, append_assoc, hms]
    have hlen : (imp.methods.mapIdx writeMethod ++ []).length = imp.methods.length := by simp
    rw [hlen]
    exact ⟨[], ⟨hmax, rfl⟩, _, rfl, (append_nil _).symm⟩
  · right
    refine ⟨fun fns hfns => hmax hfns.1, ?_⟩
    rw [if_pos (by omega)]
    exact ⟨_, rfl⟩

theorem reads_plainImport (h : ImportOk imp) (kind : String) (k : ImportKind)
    (hkind : IsName (text kind) ∧ importKind (text kind) = some k) (hk : k ≠ .type) :
    Reads B [text ".import" ++
      spaced ([text kind, imp.name] ++ writeSignature imp.paramCls imp.retCls)] (Plain True) := by
  have hkey : KnownDirective ".import" .import := by decide
  have hws : ∀ w ∈ [text kind, imp.name] ++ writeSignature imp.paramCls imp.retCls, IsName w :=
    forall_mem_cons.mpr ⟨hkind.1, forall_mem_cons.mpr ⟨h.name, h.signature.isName⟩⟩
  apply reads_always hkey hws
  intro m pos rest
  rw [readItem, if_neg (hkey.ne_nil _), hkey.directiveOf (head?_spaced _)]
  have htok : tokenize (text ".import" ++
      spaced ([text kind, imp.name] ++ writeSignature imp.paramCls imp.retCls)) =
      text ".import" :: text kind :: imp.name ::
        (writeSignature imp.paramCls imp.retCls).take (maxTokens - 3) := by
    rw [tokenize_spaced hkey.1 hws]
    rfl
  simp only [readImport, htok, hkind.2]
  cases k with
  | type => exact absurd rfl hk
  | func | helper => exact ⟨_, rfl, rfl⟩

theorem reads_import (h : ImportOk imp) :
    Reads B (writeImport imp) (Plain (imp.kind = .type → (imp.methods.length : Int) ≤ kpmMaxCount)) := by
  unfold writeImport
  cases imp.kind with
  | type => exact (reads_typeImport h).plain (by simp)
  | helper => exact (reads_plainImport h "helper" .helper (by decide) (by decide)).plain (by simp)
  | func => exact (reads_plainImport h "func" .func (by decide) (by decide)).plain (by simp)

/-! ### Globals -/

theorem baseTypeByName_name (bt : BaseType) : baseTypeByName (baseTypeName bt) = some bt := by
  cases bt <;> decide

theorem globalFlags_flag (g : Global) (ht : t ∉ [text "array", text "align", text "from"])
    (ts : List CStr) : globalFlags B g (t :: ts) = globalFlags B (globalFlag g t) ts := by
  simp only [mem_cons, not_mem_nil, or_false, not_or] at ht
  cases ts with
  | nil => rfl
  | cons v ts => rw [globalFlags, if_neg ht.1, if_neg ht.2.1, if_neg ht.2.2]

theorem globalFlags_flags (g : Global) {flags : List CStr}
    (hflg : ∀ t ∈ flags, t ∉ [text "array", text "align", text "from"]) (ts : List CStr) :
    ∃ g' : Global, g'.arrSize = g.arrSize ∧ g'.align = g.align ∧
      globalFlags B g (flags ++ ts) = globalFlags B g' ts := by
  induction flags generalizing g with
  | nil => exact ⟨g, rfl, rfl, rfl⟩
  | cons t flags ih =>
    obtain ⟨g', hsz, haln, heq⟩ := ih _ fun x hx => hflg x (mem_cons_of_mem _ hx)
    have hone : (globalFlag g t).arrSize = g.arrSize ∧ (globalFlag g t).align = g.align := by
      unfold globalFlag
      split_ifs <;> exact ⟨rfl, rfl⟩
    refine ⟨g', hsz.trans hone.1, haln.trans hone.2, ?_⟩
    rw [cons_append, globalFlags_flag g (hflg t mem_cons_self), heq]

def flagWords (g : Global) : List CStr :=
  [if g.isExport then text "export" else text "local"] ++ (if g.isPtr then [text "ptr"] else []) ++
    (if g.isRodata then [text "rodata"] else []) ++
    (if g.isStrobj then [text "strobj"] else [])

theorem mem_flagWords (h : t ∈ flagWords g) :
    t ∈ [text "export", text "local", text "ptr", text "rodata", text "strobj"] := by
  simp only [flagWords, mem_append, mem_singleton, mem_ite_nil_right] at h
  rcases h with ((rfl | ⟨-, rfl⟩) | ⟨-, rfl⟩) | ⟨-, rfl⟩
  · split <;> decide
  all_goals decide

theorem globalWords_eq (g : Global) : globalWords g =
    (if 0 < g.arrSize then [text "array", decimal g.arrSize] else []) ++
      ((if 0 < g.align then [text "align", decimal g.align] else []) ++
        (flagWords g ++ fromWords g.fromUnit)) := by
  simp [globalWords, flagWords]

theorem globalFlags_globalWords (h : GlobalOk g) (bt : BaseType) :
    let g' := globalFlags B { name := g.name, baseType := bt } (globalWords g)
    g'.arrSize = max g.arrSize 0 ∧ g'.align = max g.align 0 := by
  have hsz : ∀ g0 ts, g0.arrSize = 0 →
      ∃ g1, g1.arrSize = max g.arrSize 0 ∧ g1.align = g0.align ∧
        globalFlags B g0 ((if 0 < g.arrSize then [text "array", decimal g.arrSize] else []) ++ ts) =
          globalFlags B g1 ts := by
    intro g0 ts hzero
    split
    next hpos =>
      refine ⟨{ g0 with arrSize := intOf B _ }, ?_, rfl, rfl⟩
      simp only [intOf_decimal h.arrSize]
      omega
    next hneg => exact ⟨g0, by omega, rfl, rfl⟩
  have haln : ∀ g0 ts, g0.align = 0 →
      ∃ g1, g1.arrSize = g0.arrSize ∧ g1.align = max g.align 0 ∧
        globalFlags B g0 ((if 0 < g.align then [text "align", decimal g.align] else []) ++ ts) =
          globalFlags B g1 ts := by
    intro g0 ts hzero
    split
    next hpos =>
      refine ⟨{ g0 with align := intOf B _ }, rfl, ?_, rfl⟩
      simp only [intOf_decimal h.align]
      omega
    next hneg => exact ⟨g0, rfl, by omega, rfl⟩
  have hfm : ∀ g0, (globalFlags B g0 (fromWords g.fromUnit)).arrSize = g0.arrSize ∧
      (globalFlags B g0 (fromWords g.fromUnit)).align = g0.align := by
    intro g0
    cases g.fromUnit with
    | none | some => exact ⟨rfl, rfl⟩
  have hflg : ∀ t ∈ flagWords g, t ∉ [text "array", text "align", text "from"] := by
    have hfix : ∀ t ∈ [text "export", text "local", text "ptr", text "rodata", text "strobj"],
        t ∉ [text "array", text "align", text "from"] := by decide
    exact fun t ht => hfix t (mem_flagWords ht)
  intro g'
  obtain ⟨g1, hs1, ha1, e1⟩ := hsz { name := g.name, baseType := bt }
    ((if 0 < g.align then [text "align", decimal _] else []) ++
      (flagWords g ++ fromWords _)) rfl
  obtain ⟨g2, hs2, ha2, e2⟩ := haln g1 _ ha1
  obtain ⟨g3, hs3, ha3, e3⟩ := globalFlags_flags g2 hflg _
  have heq : g' = globalFlags B g3 (fromWords g.fromUnit) := by
    rw [← e3, ← e2, ← e1, ← globalWords_eq]
  rw [heq, (hfm g3).1, (hfm g3).2, hs3, ha3, hs2, ha2, hs1]
  exact ⟨rfl, rfl⟩

theorem isName_globalWords (h : GlobalOk g) :
    ∀ w ∈ g.name :: baseTypeName g.baseType :: globalWords g, IsName w := by
  have hnum : ∀ {key : String} {v : Int}, IsName (text key) → ∀ w ∈ [text key, decimal v], IsName w :=
    fun hkey => forall_mem_cons.mpr ⟨hkey, forall_mem_singleton.mpr (isName_decimal _)⟩
  have hflg : ∀ w ∈ [text "export", text "local", text "ptr", text "rodata", text "strobj"],
      IsName w := by decide
  have hty : IsName (baseTypeName g.baseType) := by
    cases g.baseType <;> decide
  simp only [globalWords_eq, forall_mem_cons, forall_mem_append]
  exact ⟨h.name, hty, isName_optional (hnum (by decide)), isName_optional (hnum (by decide)),
    fun w hw => hflg w (mem_flagWords hw), isName_fromWords h.fromUnit⟩

theorem length_globalWords (g : Global) : (globalWords g).length ≤ 10 := by
  have hfm := length_fromWords g.fromUnit
  simp only [globalWords, length_append, length_singleton]
  calc _ ≤ 2 + 2 + 1 + 1 + 1 + 1 + 2 := by
        gcongr
        all_goals exact length_optional

theorem line_globalInits (h : GlobalOk g) : ∀ l ∈ globalInits g, Line l := by
  intro l hl
  rcases mem_append.mp hl with hl | hl
  · obtain ⟨i, hi, rfl⟩ := mem_map.mp hl
    have hini : IsName (text ".init") := by decide
    cases i with
    | sym s =>
      exact line_spaced hini (by decide)
        (forall_mem_cons.mpr ⟨by decide, forall_mem_singleton.mpr (h.inits s hi)⟩)
    | ival v => exact line_spaced hini (by decide) (forall_mem_singleton.mpr (isName_decimal v))
  · obtain ⟨s, -, rfl⟩ := mem_map.mp hl
    exact line_quoted (f := text ".string ") ⟨46, rfl, by decide, by decide⟩ (by decide +kernel) s

theorem globalBody_written (g0 : Global) (pos : Nat) (lines : List CStr) (rest : List CStr)
    (h : ∀ l ∈ lines, (∃ i, l = writeInit i) ∨ ∃ s, l = text ".string" ++ 32 :: writeQuoted s) :
    ∃ g', globalBody B g0 pos (lines ++ text ".endglobal" :: rest) = .ok (g', lines.length + 1) := by
  induction lines generalizing g0 pos with
  | nil => exact ⟨g0, rfl⟩
  | cons l lines ih =>
    have hrs : ∀ l ∈ lines, (∃ i, l = writeInit i) ∨ ∃ s, l = text ".string" ++ 32 :: writeQuoted s :=
      fun x hx => h x (mem_cons_of_mem _ hx)
    rw [cons_append, globalBody]
    rcases h l mem_cons_self with ⟨i, rfl⟩ | ⟨s, rfl⟩
    · have hne : writeInit i ≠ text ".endglobal" := by
        intro heq
        have hbyte : some (105 : UInt8) = some 101 := by
          cases i <;> exact congrArg (fun s => s[1]?) heq
        exact absurd hbyte (by decide)
      have hpre : (text ".init").isPrefixOf (writeInit i) = true := by cases i <;> rfl
      obtain ⟨g', hg'⟩ := ih { g0 with inits := g0.inits ++ initOf _ } (pos + 1) hrs
      rw [if_neg hne, if_pos hpre, hg']
      exact ⟨g', rfl⟩
    have hne : text ".string" ++ 32 :: writeQuoted s ≠ text ".endglobal" := by
      intro heq
      have hbyte : some (115 : UInt8) = some 101 := congrArg (fun s => s[1]?) heq
      exact absurd hbyte (by decide)
    have hini : ¬(text ".init").isPrefixOf (text ".string" ++ 32 :: writeQuoted s) = true :=
      Bool.false_ne_true
    have hquoted : quotedBody (text ".string" ++ 32 :: writeQuoted s) = some (s.flatMap escape) :=
      quotedBody_append (f := text ".string ") (by decide) _
    have hstring : (text ".string").isPrefixOf (text ".string" ++ 32 :: writeQuoted s) = true := rfl
    obtain ⟨g', hg'⟩ := ih { g0 with initString := some (unescape B (s.flatMap escape)) } (pos + 1) hrs
    rw [if_neg hne, if_neg hini, if_pos hstring, hquoted]
    simp only [hg']
    exact ⟨g', rfl⟩

theorem reads_global (h : GlobalOk g) : Reads B (writeGlobal g) (Plain (g.arrSize ≤ kpmMaxCount)) := by
  have hkey : KnownDirective ".global" .global := by decide
  have hws := isName_globalWords h
  have hlast : ∀ l ∈ [text ".endglobal"], Line l := line_end (by decide)
  have hlns := line_globalInits h
  have hkinds : ∀ l ∈ globalInits g,
      (∃ i, l = writeInit i) ∨ ∃ s, l = text ".string" ++ 32 :: writeQuoted s :=
    forall_mem_append.mpr
      ⟨forall_mem_map.mpr fun i _ => .inl ⟨i, rfl⟩, forall_mem_map.mpr fun s _ => .inr ⟨s, rfl⟩⟩
  apply reads_item _ _
  · exact clean_block (hkey.line hws) hlns hlast
  · exact trim_block (hkey.line hws) hlns hlast
  intro m pos rest
  have hlen := length_globalWords g
  have htok : tokenize (text ".global" ++ spaced (g.name :: baseTypeName g.baseType :: globalWords g)) =
      text ".global" :: g.name :: baseTypeName g.baseType :: globalWords g := by
    apply tokenize_spaced_of_le hkey.1 hws
    simp only [length_cons, maxTokens]
    omega
  obtain ⟨hsz, haln⟩ := globalFlags_globalWords (B := B) h g.baseType
  have hcnt : (globalInits g ++ [text ".endglobal"]).length = (globalInits g).length + 1 := by simp
  rw [readItem, if_neg (hkey.ne_nil _), hkey.directiveOf (head?_spaced _), append_assoc,
    singleton_append, hcnt]
  simp only [readGlobal, htok, baseTypeByName_name]
  by_cases hmax : g.arrSize ≤ kpmMaxCount
  · left
    obtain ⟨g', hg'⟩ := globalBody_written
      (globalFlags B { name := g.name, baseType := g.baseType } (globalWords g)) _
      (globalInits g) _ hkinds
    rw [if_neg, hg']
    · exact ⟨[], ⟨hmax, rfl⟩, _, rfl, (append_nil _).symm⟩
    · unfold kpmMaxCount at *
      omega
  · right
    refine ⟨fun fns hfns => hmax hfns.1, ?_⟩
    rw [if_pos]
    · exact ⟨_, rfl⟩
    · omega

/-! ### Functions -/

theorem line_funcLists (fn : Func) : ∀ l ∈ funcLists fn, Line l := by
  have hli : ∀ p [Decidable p] (word : String) (zs : List Int), IsName (text word) →
      (text word).head? ≠ some 59 → ∀ l ∈ (if p then [listLine word zs] else []), Line l := by
    intro p _ word zs hwd hcom l hl
    split at hl
    · rw [mem_singleton.mp hl]
      exact line_spaced hwd hcom (isName_decimals zs)
    · cases hl
  intro l hl
  unfold funcLists at hl
  simp only [mem_append] at hl
  rcases hl with (hl | hl) | hl
  · exact hli _ ".slotsize" fn.slotSize (by decide) (by decide) l hl
  · exact hli _ ".paramclass" fn.paramClass (by decide) (by decide) l hl
  · exact hli _ ".paramfw" fn.paramFw (by decide) (by decide) l hl

theorem reads_func {fn : Func} (h : FuncOk fn) :
    Reads B (writeFunc fn) fun fns => ∃ fn', FuncBack B fn fn' ∧ fns = [fn'] := by
  have hkey : KnownDirective ".func" .func := by decide
  have hhdr := hkey.line (isName_funcWords h)
  have hlns : ∀ l ∈ funcLists fn ++ fn.insns.map writeInsn, Line l := forall_mem_append.mpr
    ⟨line_funcLists fn, forall_mem_map.mpr fun insn hinsn => (line_writeInsn (h.insns _ hinsn)).1⟩
  have hlast : ∀ l ∈ [text ".endfunc"], Line l := line_end (by decide)
  apply reads_item _ (bodyLines fn)
  · exact clean_block hhdr hlns hlast
  · exact trim_block hhdr hlns hlast
  intro m pos rest
  rw [readItem, if_neg (hkey.ne_nil _), hkey.directiveOf (head?_spaced _)]
  rcases readFunc_written h with ⟨fn', hbk, hok⟩ | ⟨hno, herr⟩
  · left
    rw [hok]
    exact ⟨[fn'], ⟨fn', hbk, rfl⟩, _, rfl, rfl⟩
  right
  obtain ⟨e, he⟩ := herr pos _
  refine ⟨fun fns ⟨fn', hbk, _⟩ => hno fn' hbk, e, ?_⟩
  rw [he]
  rfl

theorem reads_funcs {fns : List Func} (h : ∀ fn ∈ fns, FuncOk fn) :
    Reads B (fns.flatMap fun fn => [] :: writeFunc fn) (List.Forall₂ (FuncBack B) fns) := by
  induction fns with
  | nil =>
    apply Reads.nil.congr
    simp [Plain]
  | cons fn fns ih =>
    have hone : Reads B ([[]] ++ writeFunc fn) fun back =>
        True ∧ ∃ fn', FuncBack B fn fn' ∧ back = [fn'] :=
      reads_blank.plain_append (reads_func (h fn mem_cons_self))
    apply hone.append (ih fun x hx => h x (mem_cons_of_mem _ hx))
    intro back
    simp only [forall₂_cons_left_iff, true_and]
    constructor
    · rintro ⟨fn', rest, hbk, hrs, rfl⟩
      exact ⟨[fn'], rest, ⟨fn', hbk, rfl⟩, hrs, rfl⟩
    · rintro ⟨_, rest, ⟨fn', hbk, rfl⟩, hrs, rfl⟩
      exact ⟨fn', rest, hbk, hrs, rfl⟩

/-! ## The module -/

theorem reads_optional {o : Option α} {f : α → CStr} (h : ∀ x, o = some x → Reads B [f x] (Plain (p x))) :
    Reads B (o.toList.map f) (Plain (∀ x, o = some x → p x)) := by
  cases o with
  | none => exact Reads.nil.plain (by simp)
  | some x => exact (h x rfl).plain (by simp)

theorem reads_map {f : α → CStr} (h : ∀ x ∈ xs, Reads B [f x] (Plain True)) :
    Reads B (xs.map f) (Plain True) := by
  rw [map_eq_flatMap]
  exact (reads_flatMap h).plain (by simp)

/-- What the reader makes of a written module. -/
structure ModuleBack (B : Backend) (m : Module) (fns : List Func) : Prop where
  target : ∀ t, m.target = some t → targetMismatch B t = none
  imports : ∀ imp ∈ m.imports, imp.kind = .type → (imp.methods.length : Int) ≤ kpmMaxCount
  globals : ∀ g ∈ m.globals, g.arrSize ≤ kpmMaxCount
  funcs : List.Forall₂ (FuncBack B) m.funcs fns

theorem reads_moduleLines (h : WellFormed m) : Reads B (moduleLines m) (ModuleBack B m) := by
  have htgt := reads_optional (B := B) fun t ht => reads_target (h.target t ht)
  have hmod := reads_moduleLine (B := B) h.name
  have hkeys : KnownDirective ".entry" .entry ∧ KnownDirective ".export" .export ∧
    KnownDirective ".uses" .uses := by decide
  have hent := reads_optional (B := B) fun e he =>
    reads_word hkeys.1 (by decide) (forall_mem_singleton.mpr (h.entry e he))
  have hdeps := reads_map (B := B) fun d hd => reads_word hkeys.2.2 (by decide)
    (forall_mem_cons.mpr ⟨h.deps d hd, isName_fingerprint d.fingerprint⟩)
  have hfi := reads_optional (B := B) (o := m.sourceFile) fun f _ => reads_file f
  have himports := reads_group (B := B) fun imp himp => reads_import (h.imports imp himp)
  have hexports := reads_group (B := B) fun e he =>
    reads_word hkeys.2.1 (by decide) (forall_mem_singleton.mpr (h.exports e he))
  have hgls := reads_group (B := B) fun g hg => reads_global (h.globals g hg)
  have hinterface := reads_interface (B := B) h.interface
  have hfuncs := reads_funcs (B := B) h.funcs
  unfold moduleLines
  simp only [append_assoc]
  apply (htgt.plain_append (hmod.plain_append (hent.plain_append (hdeps.plain_append
    (hfi.plain_append (himports.plain_append (hexports.plain_append (hgls.plain_append
      (hinterface.plain_append hfuncs))))))))).congr
  intro fns
  constructor
  · intro hbk
    exact ⟨hbk.target, trivial, fun _ _ => trivial, trivial, fun _ _ => trivial, hbk.imports,
      fun _ _ => trivial, hbk.globals, trivial, hbk.funcs⟩
  · rintro ⟨ht, -, -, -, -, hi, -, hg, -, hf⟩
    exact ⟨ht, hi, hg, hf⟩

/-- Reading the text of a module: the functions come back as they are read one by one, or the reader
fails. -/
theorem kpmRead_kpmWrite (h : WellFormed m) :
    (∃ fns, ModuleBack B m fns ∧ (kpmRead B (kpmWrite m)).rc = 0 ∧ ∃ file,
      (kpmRead B (kpmWrite m)).module.funcs = fns.map fun fn => { fn with srcFile := file }) ∨
    ((∀ fns, ¬ModuleBack B m fns) ∧ (kpmRead B (kpmWrite m)).rc ≠ 0) := by
  have hrds := reads_moduleLines (B := B) h
  have hnm : IsName (text ".kpm") := by decide
  have hhdr : Line (text ".kpm" ++ spaced [text "1"]) :=
    line_spaced hnm (by decide) (by decide)
  have hlns : readLines (kpmWrite m) =
      (text ".kpm" ++ spaced [text "1"]) :: ((moduleLines m).map trimLine ++ [[]]) := by
    rw [kpmWrite, readLines_unlines, map_cons, hhdr.trimmed.trimLine, cons_append]
    · exact forall_mem_cons.mpr ⟨hhdr.no_nul, fun line hln => (hrds.clean _ hln).1⟩
    · exact forall_mem_cons.mpr ⟨hhdr.no_newline, fun line hln => (hrds.clean _ hln).2⟩
  have hmod : readModule B (readLines (kpmWrite m)) =
      (readItems B {} 1 0 ((moduleLines m).map trimLine ++ [[]])).map fun m =>
        { m with funcs := m.funcs.map fun fn => { fn with srcFile := m.sourceFile } } := by
    have htok : (tokenize (text ".kpm" ++ spaced [text "1"]))[1]? = some (text "1") := by
      decide +kernel
    have hpre : (text ".kpm").isPrefixOf (text ".kpm" ++ spaced [text "1"]) = true := rfl
    have hne : decide (text ".kpm" ++ spaced [text "1"] = []) = false := rfl
    simp only [hlns, readModule, takeWhile_cons, dropWhile_cons, hne, Bool.false_eq_true,
      if_false, hpre, htok, not_true_eq_false, ne_eq, length_nil, zero_add]
  unfold kpmRead
  rw [hmod]
  rcases hrds.read {} 1 [[]] with ⟨fns, hbk, m', hm', hrd⟩ | ⟨hno, e, herr⟩
  · left
    rw [hrd]
    refine ⟨fns, hbk, rfl, m'.sourceFile, ?_⟩
    have hfuncs : m'.funcs = fns := hm'
    rw [← hfuncs]
    rfl
  · right
    rw [herr]
    exact ⟨hno, by simp [Except.map]⟩

theorem forall₂_sameFunc_iff {fns back : List Func} (file : Option CStr) (h : ∀ fn ∈ fns, FuncOk fn)
    (hbk : List.Forall₂ (FuncBack B) fns back) :
    List.Forall₂ SameFunc fns (back.map fun fn => { fn with srcFile := file }) ↔
      ∀ fn ∈ fns, FuncCarried fn := by
  induction hbk with
  | nil => simp
  | cons hone hrs ih =>
    next fn fn' fns back =>
    have hfi : SameFunc fn { fn' with srcFile := file } ↔ SameFunc fn fn' :=
      ⟨fun hs => ⟨hs.nparams, hs.nslots, hs.slotSize, hs.insns⟩,
        fun hs => ⟨hs.nparams, hs.nslots, hs.slotSize, hs.insns⟩⟩
    rw [map_cons, forall₂_cons, ih fun x hx => h x (mem_cons_of_mem _ hx), hfi,
      sameFunc_iff (h fn mem_cons_self) hone, forall_mem_cons]

theorem moduleBack_self (h : WellFormed m) (hcar : Carried B m) : ModuleBack B m m.funcs :=
  ⟨hcar.target, hcar.imports, hcar.globals, forall₂_same.mpr fun fn hfn =>
    funcBack_self (h.funcs fn hfn) (hcar.funcs fn hfn)⟩

theorem carried_of_roundTrips (h : WellFormed m) (hrnd : RoundTrips B m) : Carried B m := by
  rcases kpmRead_kpmWrite h with ⟨fns, hbk, -, file, hfuncs⟩ | ⟨-, hrc⟩
  · have hsm := hrnd.funcs
    rw [hfuncs, forall₂_sameFunc_iff _ h.funcs hbk.funcs] at hsm
    exact ⟨hbk.target, hbk.imports, hbk.globals, hsm⟩
  · exact absurd hrnd.succeeds hrc

/-- A well-formed module comes back from its own text exactly when the text carries it: the backend
and the counts fit the reader, no slot beyond the 63rd has a size, and no instruction has a field
the text has no room for. -/
theorem roundTrips_iff_carried (B : Backend) (m : Module) (h : WellFormed m) :
    RoundTrips B m ↔ Carried B m := by
  constructor
  · exact carried_of_roundTrips h
  intro hcar
  rcases kpmRead_kpmWrite h with ⟨fns, hbk, hrc, file, hfuncs⟩ | ⟨hno, -⟩
  · refine ⟨hrc, ?_⟩
    rw [hfuncs, forall₂_sameFunc_iff _ h.funcs hbk.funcs]
    exact hcar.funcs
  · exact absurd (moduleBack_self h hcar) (hno _)

/-- A function that takes the address of the first of `n` slots of eight bytes. -/
def slotFunc (n : Nat) : Func :=
  { name := text "f"
    nslots := n
    ntemps := 1
    slotSize := replicate n 8
    insns := [{ op := .adl, dst := 0, slot := 0 }] }

theorem funcOk_slotFunc {n : Nat} (hpos : 0 < n) (hn : n < 2 ^ 31) : FuncOk (slotFunc n) := by
  have hsl : Within (n : Int) 0 := ⟨le_rfl, by omega⟩
  have hinsn : InsnOk (slotFunc n) { op := .adl, dst := 0, slot := 0 } := by
    constructor
    case safe =>
      exact ⟨.inr ⟨le_rfl, one_pos⟩, .inl rfl, .inl rfl, fun _ => hsl, Bool.noConfusion,
        fun _ h => (nomatch h)⟩
    case slot => exact .inr hsl
    case label => exact .inl rfl
    case imm => decide
    case nargs => decide
    case sym => exact fun _ s h => (nomatch h)
    case template => exact fun h => absurd h (by decide)
    case asm => exact fun info h => (nomatch h)
  constructor
  case name => exact (by decide : IsName (text "f"))
  case fromUnit => exact fun u h => (nomatch h)
  case params => exact ⟨le_rfl, Int.natCast_nonneg n⟩
  case slots => exact ⟨by simp only [slotFunc]; omega, by simp only [slotFunc]; omega⟩
  case temps => exact (by decide : (0 : Int) ≤ 1 ∧ IsInt 1)
  case labels => exact (by decide : (0 : Int) ≤ 0 ∧ IsInt 0)
  case slotSize_length => simp [slotFunc]
  case slotSize =>
    intro z hz
    rw [eq_of_mem_replicate hz]
    decide
  case insns => exact forall_mem_singleton.mpr hinsn

theorem wellFormed_singleton {fn : Func} (h : FuncOk fn) : WellFormed { funcs := [fn] } := by
  constructor
  case funcs => exact forall_mem_singleton.mpr h
  all_goals simp

/-- The 64th slot size finds no room in the token table and comes back as zero. -/
theorem slotFunc_not_roundTrips : ¬∀ (B : Backend) (m : Module), WellFormed m → RoundTrips B m := by
  intro hall
  have hwf : WellFormed { funcs := [slotFunc 64] } :=
    wellFormed_singleton (funcOk_slotFunc (by decide) (by decide))
  have hcar := carried_of_roundTrips hwf (hall ⟨.lp64, text "x86-64", text "lp64"⟩ _ hwf)
  have hzero := (hcar.funcs _ mem_cons_self).slotSize 8 (by decide)
  exact absurd hzero (by decide)

theorem roundTrips_iff_carried_slots :
    RoundTrips ⟨.lp64, text "x86-64", text "lp64"⟩ { funcs := [slotFunc 63] } := by
  apply (roundTrips_iff_carried _ _ (wellFormed_singleton (funcOk_slotFunc (by decide) (by decide)))).mpr
  constructor
  case funcs =>
    intro fn hfn
    rw [mem_singleton.mp hfn]
    constructor
    case insns =>
      intro insn hinsn
      rw [mem_singleton.mp hinsn]
      exact ⟨rfl, rfl, fun _ => rfl, fun h => absurd h (by decide),
        fun info h => (nomatch h)⟩
    all_goals decide
  all_goals simp

end Skjegg.Kobold.Kpm
