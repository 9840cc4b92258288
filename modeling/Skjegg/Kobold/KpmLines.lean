import Skjegg.Kobold.KpmWrite

/-!
# Reading written lines

What the reader makes of the pieces the writer puts on a line: the trimmed line, its words, the
numbers and the quoted strings.
-/

namespace Skjegg.Kobold.Kpm

open Skjegg.Lib Skjegg.Libc List
open Skjegg.Ir (Op)

variable {B : Backend} {w s : CStr} {ws : List CStr}

/-! ## Words -/

theorem IsName.isWord (h : IsName s) : IsWord s := by
  refine ⟨h.ne_nil, fun c hc => ?_⟩
  have hpl := h.plain c hc
  simp only [mem_cons, not_mem_nil, or_false, not_or] at hpl
  simp [isBlank, hpl]

theorem isName_of_forall (hne : s ≠ []) (h : ∀ c ∈ s, 33 ≤ c.toNat) : IsName s := by
  refine ⟨hne, fun c hc => ?_⟩
  have hge := h c hc
  simp only [mem_cons, not_mem_nil, or_false, not_or]
  refine ⟨?_, ?_, ?_, ?_, ?_⟩ <;> rintro rfl <;> revert hge <;> decide

theorem isName_decimal (z : Int) : IsName (decimal z) := by
  apply isName_of_forall (decimal_ne_nil z)
  intro c hc
  rcases mem_decimal hc with rfl | hdig
  · decide
  · omega

theorem isName_decimalNat (n : Nat) : IsName (decimalNat n) := by
  apply isName_of_forall (decimalNat_ne_nil n)
  intro c hc
  have := mem_decimalNat hc
  omega

theorem IsName.append {t : CStr} (hs : IsName s) (ht : ∀ c ∈ t, c ∉ ([0, 9, 10, 13, 32] : List UInt8)) :
    IsName (s ++ t) := by
  exact ⟨append_ne_nil_of_left_ne_nil hs.ne_nil t, forall_mem_append.mpr ⟨hs.plain, ht⟩⟩

theorem IsName.assign {t : CStr} (hs : IsName s) (ht : IsName t) : IsName (s ++ 61 :: t) :=
  hs.append (forall_mem_cons.mpr ⟨by decide, ht.plain⟩)

section Optional

variable {p : Prop} [Decidable p] {l : List CStr}

theorem isName_optional (h : ∀ w ∈ l, IsName w) : ∀ w ∈ if p then l else [], IsName w := by
  split
  · exact h
  · exact fun w hw => absurd hw not_mem_nil

theorem length_optional : (if p then l else []).length ≤ l.length := by
  split <;> simp

end Optional

/-! ## Lines -/

/-- A line the reader's trimming leaves as it is. -/
structure Trimmed (s : CStr) : Prop where
  first : ∃ c, s.head? = some c ∧ isBlank c = false ∧ c ≠ 59
  last : ∃ c, s.getLast? = some c ∧ isBlank c = false ∧ c ≠ 13

theorem Trimmed.trimLine_append (h : Trimmed s) {front : CStr} (hfro : ∀ c ∈ front, isBlank c) :
    trimLine (front ++ s) = s := by
  obtain ⟨c, hc, hcb, hc59⟩ := h.first
  obtain ⟨d, hd, hdb, hd13⟩ := h.last
  have hls : (front ++ s).getLast? ≠ some 13 := by
    rw [getLast?_append, hd]
    simpa using hd13
  have hdrop : (front ++ s).dropWhile isBlank = s := by
    rw [dropWhile_append_of_pos hfro]
    obtain ⟨t, rfl⟩ : ∃ t, s = c :: t := head?_eq_some_iff.mp hc
    rw [dropWhile_cons, if_neg (by rw [hcb]; decide)]
  have hrev : s.reverse.dropWhile isBlank = s.reverse := by
    obtain ⟨t, rfl⟩ : ∃ t, s = t ++ [d] := getLast?_eq_some_iff.mp hd
    rw [reverse_append, reverse_singleton, singleton_append, dropWhile_cons, if_neg (by rw [hdb]; decide)]
  simp only [trimLine, if_neg hls, hdrop, hrev, reverse_reverse]
  rw [if_neg]
  rw [hc]
  simpa using hc59

theorem Trimmed.trimLine (h : Trimmed s) : trimLine s = s :=
  h.trimLine_append (fun _ hc => absurd hc not_mem_nil)

theorem Trimmed.trimLine_indent (h : Trimmed s) : Kpm.trimLine (indent ++ s) = s :=
  h.trimLine_append (by decide +kernel)

theorem IsName.getLast? (h : IsName s) : ∃ c, s.getLast? = some c ∧ isBlank c = false ∧ c ≠ 13 := by
  have hls := getLast?_eq_some_getLast h.ne_nil
  have hmem := getLast_mem h.ne_nil
  refine ⟨_, hls, h.isWord.no_blank _ hmem, ?_⟩
  intro heq
  exact h.plain _ hmem (by rw [heq]; decide)

theorem getLast?_spaced (hw : IsName w) (hws : ∀ w ∈ ws, IsName w) :
    ∃ c, (w ++ spaced ws).getLast? = some c ∧ isBlank c = false ∧ c ≠ 13 := by
  induction ws generalizing w with
  | nil =>
    rw [spaced, flatMap_nil, append_nil]
    exact hw.getLast?
  | cons w' ws ih =>
    obtain ⟨c, hc, hok⟩ := ih (hws w' mem_cons_self) fun x hx => hws x (mem_cons_of_mem _ hx)
    refine ⟨c, ?_, hok⟩
    have hspl : w ++ spaced (w' :: ws) = (w ++ [32]) ++ (w' ++ spaced ws) := by simp [spaced]
    rw [hspl, getLast?_append, hc]
    rfl

theorem IsName.head? (h : IsName s) : ∃ c, s.head? = some c ∧ isBlank c = false := by
  obtain ⟨c, t, rfl⟩ := exists_cons_of_ne_nil h.ne_nil
  exact ⟨c, rfl, h.isWord.no_blank c mem_cons_self⟩

theorem trimmed_spaced (hw : IsName w) (hcom : w.head? ≠ some 59) (hws : ∀ w ∈ ws, IsName w) :
    Trimmed (w ++ spaced ws) := by
  refine ⟨?_, getLast?_spaced hw hws⟩
  obtain ⟨c, hc, hblk⟩ := hw.head?
  refine ⟨c, ?_, hblk, fun heq => hcom (heq ▸ hc)⟩
  rw [head?_append, hc]
  rfl

theorem tokenize_spaced (hw : IsName w) (hws : ∀ w ∈ ws, IsName w) :
    tokenize (w ++ spaced ws) = (w :: ws).take maxTokens := by
  rw [tokenize, words_spaced hw.isWord fun x hx => (hws x hx).isWord]

theorem tokenize_spaced_of_le (hw : IsName w) (hws : ∀ w ∈ ws, IsName w) (hlen : ws.length < maxTokens) :
    tokenize (w ++ spaced ws) = w :: ws := by
  rw [tokenize_spaced hw hws, take_of_length_le hlen]

variable {rest : CStr} {c : UInt8} {z : Int}

theorem kw_append {d : CStr} (hw : IsWord w) (hd : IsWord d) (hrs : rest.head?.all isBlank) :
    kw (w ++ rest) d = decide (d = w) := by
  -- a word that goes on behind another one does so with no blank
  have hen : ∀ {a b u v : CStr}, IsWord a → a = b ++ u → (u ++ v).head?.all isBlank → b = a := by
    intro a b u v ha hu hblk
    cases u with
    | nil => rw [hu, append_nil]
    | cons c u =>
      have := ha.no_blank c (hu ▸ mem_append_right b mem_cons_self)
      rw [cons_append, head?_cons, Option.all_some, this] at hblk
      cases hblk
  have hiff : kw (w ++ rest) d = true ↔ d = w := by
    unfold kw
    rw [Bool.and_eq_true, isPrefixOf_iff_prefix]
    constructor
    · rintro ⟨⟨t, ht⟩, hblk⟩
      rw [← ht, drop_left] at hblk
      rcases append_eq_append_iff.mp ht with ⟨u, hu, hv⟩ | ⟨u, hu, hv⟩
      · exact hen hw hu (hv ▸ hblk)
      · exact (hen hd hu (hv ▸ hrs)).symm
    · rintro rfl
      exact ⟨prefix_append d _, by rwa [drop_left]⟩
  rw [Bool.eq_iff_iff, hiff, decide_eq_true_iff]

theorem head?_spaced (ws : List CStr) : (spaced ws).head?.all isBlank := by
  cases ws with
  | nil | cons => rfl

theorem directiveOf_append (hw : IsWord w) (hrs : rest.head?.all isBlank) :
    directiveOf (w ++ rest) = (directives.find? fun d => text d.1 = w).map Prod.snd := by
  have hwds : ∀ d ∈ directives, IsName (text d.1) := by decide +kernel
  unfold directiveOf
  congr 1
  apply find?_congr
  intro d hd
  exact kw_append hw (hwds d hd).isWord hrs

/-! ## The text as lines -/

theorem readLines_unlines {lines : List CStr} (hnul : ∀ line ∈ lines, 0 ∉ line)
    (hnewline : ∀ line ∈ lines, 10 ∉ line) : readLines (unlines lines) = lines.map trimLine ++ [[]] := by
  have hcstring : cString (unlines lines) = unlines lines := by
    apply takeWhile_eq_self_iff.mpr
    intro c hc
    obtain ⟨line, hln, hmem⟩ := mem_flatMap.mp hc
    have hne : c ≠ 0 := by
      rintro rfl
      rcases mem_append.mp hmem with hmem | hmem
      · exact hnul _ hln hmem
      · exact absurd hmem (by decide)
    simpa using hne
  rw [readLines, hcstring, splitLines_unlines hnewline, map_append]
  rfl

/-! ## Numbers -/

def Stops (rest : CStr) : Prop := ∀ c, rest.head? = some c → ¬IsDigit 10 c

theorem stops_nil : Stops [] := fun _ h => nomatch h

theorem stops_cons (h : ¬IsDigit 10 c) (rest : CStr) : Stops (c :: rest) := by
  rintro d ⟨⟩
  exact h

theorem longOf_decimal (h : IsInt z) (hrs : Stops rest) : longOf B (decimal z ++ rest) = z :=
  strtol_decimal B.dm h.1 h.2 hrs

theorem bmod_isInt (h : IsInt z) : Int.bmod z (2 ^ 32) = z := by
  obtain ⟨hlo, hhi⟩ := h
  exact Int.bmod_eq_of_le_mul_two (by norm_num; omega) (by norm_num; omega)

theorem intOf_decimal_append (h : IsInt z) (hrs : Stops rest) : intOf B (decimal z ++ rest) = z := by
  rw [intOf, longOf_decimal h hrs, bmod_isInt h]

theorem intOf_decimal (h : IsInt z) : intOf B (decimal z) = z := by
  have := intOf_decimal_append (B := B) h stops_nil
  rwa [append_nil] at this

theorem longOf_decimal_nil (h : IsInt z) : longOf B (decimal z) = z := by
  have := longOf_decimal (B := B) h stops_nil
  rwa [append_nil] at this

theorem strtoll_decimal (hlo : -2 ^ 63 ≤ z) (hhi : z < 2 ^ 63) : (strtoll (decimal z) 10).value = z := by
  have := toSigned_decimal (w := 64) (by decide) hlo hhi stops_nil
  rwa [append_nil] at this

/-! ## Quoted strings -/

theorem cutAt_append {front : CStr} (h : c ∉ front) (behind : CStr) :
    cutAt c (front ++ c :: behind) = some (front, behind) := by
  have hfro : ∀ x ∈ front, decide (x ≠ c) = true := fun x hx =>
    decide_eq_true fun heq => h (heq ▸ hx)
  rw [cutAt, if_pos (mem_append_right _ mem_cons_self),
    takeWhile_append_of_pos hfro, dropWhile_append_of_pos hfro]
  simp

theorem quotedBody_append {f : CStr} (h : 34 ∉ f) (body : CStr) :
    quotedBody (f ++ 34 :: (body ++ [34])) = some body := by
  rw [quotedBody, cutAt_append h]
  simp

theorem hexOf_hexDigit {n : Nat} (h : n < 16) : hexOf B (hexDigit n) = n := by
  have hall : ∀ dm (n : Fin 16), (strtol dm [hexDigit n] 16).value = n := by
    intro dm
    cases dm <;> decide +kernel
  exact hall _ ⟨n, h⟩

theorem unescape_plain (h : c ≠ 92) (t : CStr) : unescape B (c :: t) = c :: unescape B t := by
  have hne : ∀ {r : List UInt8}, c :: t ≠ 92 :: r := fun hr => h (cons.inj hr).1
  rw [unescape.eq_def]
  split
  case h_8 heq =>
    cases heq
    rfl
  case h_9 heq => cases heq
  all_goals next heq => exact absurd heq hne

theorem unescape_escape (c : UInt8) (t : CStr) : unescape B (escape c ++ t) = c :: unescape B t := by
  unfold escape
  split_ifs with hq hb hn ht hr hp
  · rw [hq]; rfl
  · rw [hb]; rfl
  · rw [hn]; rfl
  · rw [ht]; rfl
  · rw [hr]; rfl
  · exact unescape_plain hb t
  have hlt := c.toNat_lt
  show UInt8.ofNat (hexOf B (hexDigit (c.toNat / 16)) * 16 + hexOf B (hexDigit (c.toNat % 16))).toNat
    :: unescape B t = _
  rw [hexOf_hexDigit (by omega), hexOf_hexDigit (Nat.mod_lt _ (by decide))]
  have hnat : ((c.toNat / 16 : Nat) * 16 + (c.toNat % 16 : Nat) : Int).toNat = c.toNat := by omega
  rw [hnat, UInt8.ofNat_toNat]

theorem unescape_flatMap (s : List UInt8) : unescape B (s.flatMap escape) = s := by
  induction s with
  | nil => rfl
  | cons c s ih => rw [flatMap_cons, unescape_escape, ih]

theorem mem_escape {b : UInt8} (h : c ∈ escape b) : 32 ≤ c.toNat ∧ c.toNat ≤ 126 := by
  have hdig : ∀ n : Fin 16, 32 ≤ (hexDigit n).toNat ∧ (hexDigit n).toNat ≤ 126 := by decide
  have hlt := b.toNat_lt
  unfold escape at h
  split_ifs at h with hq hb hn ht hr hp
  all_goals simp only [mem_cons, not_mem_nil, or_false] at h
  iterate 5
    · rcases h with rfl | rfl <;> decide
  · rw [h]
    exact hp
  · rcases h with rfl | rfl | rfl | rfl
    · decide
    · decide
    · exact hdig ⟨_, by omega⟩
    · exact hdig ⟨_, Nat.mod_lt _ (by decide)⟩

theorem mem_writeQuoted {s : List UInt8} (h : c ∈ writeQuoted s) : 32 ≤ c.toNat ∧ c.toNat ≤ 126 := by
  rcases mem_cons.mp h with rfl | h
  · decide
  rcases mem_append.mp h with h | h
  · obtain ⟨b, -, hb⟩ := mem_flatMap.mp h
    exact mem_escape hb
  · rw [mem_singleton.mp h]
    decide

end Skjegg.Kobold.Kpm
