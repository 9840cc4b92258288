import Skjegg.Ld.ElfRead

/-!
# Archives

`ld_read_archive` goes through the symbol index of an archive until a round pulls no member. A member
is pulled when the index lists it for a symbol that the loaded objects refer to and do not define.
-/

namespace Skjegg.Ld

open List Relation

def arNum (field : List UInt8) : Nat :=
  (field.takeWhile fun b => 48 ≤ b ∧ b ≤ 57).foldl (fun v b => v * 10 + (b.toNat - 48)) 0

def be32 (buf : List UInt8) (p : Nat) : Nat := ((buf.drop p).take 4).foldl (fun v b => v * 256 + b.toNat) 0

/-- Where the symbol index and the table of long names start, and their sizes. -/
structure ArTables where
  symtab : Option (Nat × Nat) := none
  ext : Option (Nat × Nat) := none

/-- The first pass; a header takes 60 bytes, so as many turns as there are bytes are enough. -/
def findTables (buf : List UInt8) : Nat → Nat → ArTables → ArTables
  | 0, _, t => t
  | fuel + 1, pos, t =>
    if buf.length < pos + 60 then t
    else
      let size := arNum ((buf.drop (pos + 48)).take 10)
      let here := some (pos + 60, size % 2 ^ 32)
      let t := match (buf.drop pos).take 2 with
        | [47, 32] => { t with symtab := here }
        | [47, 47] => { t with ext := here }
        | _ => t
      findTables buf fuel (pos + 60 + size + size % 2) t

/-- The symbols of the index with the offsets of their members; a name that is not terminated is none. -/
def indexEntries (buf : List UInt8) : Nat → Nat → List UInt8 → List (Option Text × Nat)
  | 0, _, _ => []
  | left + 1, offs, names =>
    let name := names.takeWhile (· ≠ 0)
    let entry := if name = names then none else some (name.map fun b => Char.ofNat b.toNat)
    (entry, be32 buf offs) :: indexEntries buf left (offs + 4) (names.drop (name.length + 1))

/-- What is kept of an archive: its index, and the table of long names. -/
structure ArIndex where
  entries : List (Option Text × Nat)
  ext : List UInt8
  deriving DecidableEq

def openArchive (path : Text) (buf : List UInt8) : Except LdError ArIndex :=
  if buf.take 8 ≠ [33, 60, 97, 114, 99, 104, 62, 10] then .error (dieAt path "not an ar archive")
  else
    let t := findTables buf buf.length 8 {}
    match t.symtab with
    | none => .error (dieAt path "no symbol index (build the archive with 'ar rcs' or ranlib)")
    | some (symtab, size) =>
      let nsym := be32 buf symtab
      if size < 4 then .error (dieAt path "no symbol index (build the archive with 'ar rcs' or ranlib)")
      else if buf.length < symtab + size then
        .error (dieAt path "symbol index runs past the end of the archive")
      else if t.ext.any fun e => buf.length < e.1 + e.2 then
        .error (dieAt path "long-name table runs past the end of the archive")
      else if size < 4 + nsym * 4 then .error (dieAt path "symbol index count exceeds its member")
      else
        .ok {
          entries := indexEntries buf nsym (symtab + 4)
            ((buf.drop (symtab + 4 + nsym * 4)).take (size - (4 + nsym * 4)))
          ext := t.ext.elim [] fun e => (buf.drop e.1).take e.2 }

/-- The objects of the link, and the members loaded with the paths of their archives. -/
structure Loaded where
  objs : List Object
  members : List (Text × Nat)
  deriving DecidableEq

/-- A loaded object refers to the symbol, and none defines it. -/
def symNeeded (objs : List Object) (name : Text) : Bool :=
  let named := (objs.flatMap Object.syms).filter fun s => s.binding = stbGlobal ∧ s.name = name
  named.any (·.shndx = shnUndef) && !named.any (·.shndx ≠ shnUndef)

inductive ArError
  | stop (e : LdError)
  | spent
  deriving DecidableEq

section Pull

variable (path : Text) (buf : List UInt8)

/-- The name of a member for messages; one that starts with a number stands in the table of long names. -/
def memberName (ext h : List UInt8) : Text :=
  let mem := match h with
    | 47 :: c :: more =>
      if 48 ≤ c ∧ c ≤ 57 then
        ((ext.drop (arNum ((c :: more).take 15))).takeWhile fun b => b ≠ 47 ∧ b ≠ 10).take 63
      else []
    | _ => (h.take 16).takeWhile fun b => b ≠ 47 ∧ b ≠ 32
  path ++ '(' :: (mem.takeWhile (· ≠ 0)).map (fun b => Char.ofNat b.toNat) ++ [')']

variable (ar : ArIndex)

def memberAt (off : Nat) : Except LdError Object :=
  let h := buf.drop off
  let size := arNum ((h.drop 48).take 10)
  if buf.length < off + 60 then .error (dieAt path "bad member offset in symbol index")
  else if buf.length < off + 60 + size then .error (dieAt path "member overruns the archive")
  else
    ldParseObject ((h.drop 60).take size) (memberName path ar.ext h)

def pullEntry (s : Loaded × Bool) (entry : Option Text × Nat) : Except LdError (Loaded × Bool) :=
  match entry.1 with
  | none => .error (dieAt path "unterminated name in symbol index")
  | some name =>
    if symNeeded s.1.objs name ∧ (path, entry.2) ∉ s.1.members then do
      let obj ← memberAt path buf ar entry.2
      pure (⟨s.1.objs ++ [obj], s.1.members ++ [(path, entry.2)]⟩, true)
    else
      pure s

def pullLoop : Nat → Loaded → Except ArError Loaded
  | 0, _ => .error .spent
  | fuel + 1, s =>
    match ar.entries.foldlM (pullEntry path buf ar) (s, false) with
    | .error e => .error (.stop e)
    | .ok (s, true) => pullLoop fuel s
    | .ok (s, false) => .ok s

def ldReadArchive (fuel : Nat) (s : Loaded) : Except ArError Loaded :=
  match openArchive path buf with
  | .error e => .error (.stop e)
  | .ok ar => pullLoop path buf ar fuel s

end Pull

/-! ## What the archive is read for -/

/-- A loaded object refers to the symbol, and none of them defines it for the others. -/
def Needed (objs : List Object) (name : Text) : Prop :=
  (∃ y ∈ objs.flatMap Object.syms, y.name = name ∧ y.binding = stbGlobal ∧ y.shndx = shnUndef) ∧
    ∀ y ∈ objs.flatMap Object.syms, y.name = name → y.binding ≠ stbLocal → y.shndx = shnUndef

section Pull

variable (path : Text) (buf : List UInt8) (ar : ArIndex)

/-- A member is loaded that the index lists for a symbol needed now, and that was not loaded. -/
inductive PullStep (s : Loaded) : Loaded → Prop
  | pull {name : Text} {off : Nat} {obj : Object} (hlists : (some name, off) ∈ ar.entries)
      (hneeded : Needed s.objs name) (hnew : (path, off) ∉ s.members)
      (hobj : memberAt path buf ar off = .ok obj) :
      PullStep s ⟨s.objs ++ [obj], s.members ++ [(path, off)]⟩

/-- Each member is loaded at most once and for a symbol needed then, and a symbol still needed
belongs to a loaded member. -/
structure Pulled (s s' : Loaded) : Prop where
  once : ∃ new, s'.members = s.members ++ new ∧ new.Nodup ∧ ∀ m ∈ new, m ∉ s.members
  needed : ReflTransGen (PullStep path buf ar) s s'
  closed : ∀ name off, (some name, off) ∈ ar.entries → Needed s'.objs name → (path, off) ∈ s'.members

/-- The loop ends, and where it ends without an error the members are pulled. -/
def Settles (s : Loaded) : Prop :=
  (∃ n, ∀ fuel, n ≤ fuel → ldReadArchive path buf fuel s ≠ .error .spent) ∧
    ∀ fuel s', ldReadArchive path buf fuel s = .ok s' → Pulled path buf ar s s'

end Pull

/-- The objects define no symbol of the index weakly: a definition is local or global. -/
def StrongDefs (index : List (Option Text × Nat)) (objs : List Object) : Prop :=
  ∀ y ∈ objs.flatMap Object.syms, (∃ off, (some y.name, off) ∈ index) → y.shndx ≠ shnUndef →
    y.binding = stbLocal ∨ y.binding = stbGlobal

section Rounds

variable {path name : Text} {buf : List UInt8} {ar : ArIndex} {l : List (Option Text × Nat)}
  {e : Option Text × Nat} {objs : List Object} {s s' : Loaded} {b b' : Bool}

theorem symNeeded_iff : symNeeded objs name = true ↔
    (∃ y ∈ objs.flatMap Object.syms, y.name = name ∧ y.binding = stbGlobal ∧ y.shndx = shnUndef) ∧
      ∀ y ∈ objs.flatMap Object.syms, y.name = name → y.binding = stbGlobal → y.shndx = shnUndef := by
  unfold symNeeded
  simp only [Bool.and_eq_true, any_eq_true, mem_filter, decide_eq_true_eq, Bool.not_eq_true', any_eq_false]
  grind

theorem Needed.symNeeded (h : Needed objs name) : symNeeded objs name = true := by
  refine symNeeded_iff.mpr ⟨h.1, fun y hy hnm hbind => h.2 y hy hnm ?_⟩
  rw [hbind]
  decide

theorem StrongDefs.needed {off : Nat} (hs : StrongDefs ar.entries objs) (hls : (some name, off) ∈ ar.entries)
    (h : symNeeded objs name = true) : Needed objs name := by
  obtain ⟨href, hglb⟩ := symNeeded_iff.mp h
  refine ⟨href, fun y hy hnm hloc => ?_⟩
  by_contra hdef
  have hbind := (hs y hy ⟨off, by rwa [hnm]⟩ hdef).resolve_left hloc
  exact hdef (hglb y hy hnm hbind)

/-- An entry of the index loads its member, or there is nothing to load for it. -/
theorem pullEntry_spec (he : e ∈ ar.entries) (hs : StrongDefs ar.entries s.objs)
    (h : pullEntry path buf ar (s, b) e = .ok (s', b')) :
    (b' = b ∧ s' = s ∧ ∀ name, e.1 = some name → Needed s.objs name → (path, e.2) ∈ s.members) ∨
      (b' = true ∧ PullStep path buf ar s s') := by
  unfold pullEntry at h
  split at h
  · cases h
  rename_i name hnm
  have hls : (some name, e.2) ∈ ar.entries := by rwa [← hnm]
  split at h
  · next hpull =>
    obtain ⟨obj, hobj, hok⟩ := step_ok h
    cases hok
    exact .inr ⟨rfl, .pull hls (hs.needed hls hpull.1) hpull.2 hobj⟩
  rename_i hkp
  cases h
  refine .inl ⟨rfl, rfl, fun name' hnm' hneeded => ?_⟩
  cases hnm.symm.trans hnm'
  by_contra hnew
  exact hkp ⟨hneeded.symNeeded, hnew⟩

variable (hm : ∀ name off obj, (some name, off) ∈ ar.entries → memberAt path buf ar off = .ok obj →
  StrongDefs ar.entries [obj])

include hm

theorem StrongDefs.step (hs : StrongDefs ar.entries s.objs) (h : PullStep path buf ar s s') :
    StrongDefs ar.entries s'.objs := by
  cases h with
  | pull hls hneeded hnew hobj =>
    intro y hy
    rw [flatMap_append] at hy
    rcases mem_append.mp hy with hold | hadd
    · exact hs y hold
    · exact hm _ _ _ hls hobj y hadd

/-- A round over a part of the index loads something, or every entry of it is settled. -/
theorem pullRound_spec (hl : l ⊆ ar.entries) (hs : StrongDefs ar.entries s.objs)
    (h : l.foldlM (pullEntry path buf ar) (s, b) = .ok (s', b')) :
    (b' = b ∧ s' = s ∧ ∀ name off, (some name, off) ∈ l → Needed s.objs name → (path, off) ∈ s.members) ∨
      (b' = true ∧ StrongDefs ar.entries s'.objs ∧ TransGen (PullStep path buf ar) s s') := by
  induction l generalizing s b with
  | nil =>
    cases h
    exact .inl ⟨rfl, rfl, nofun⟩
  | cons e l ih =>
    obtain ⟨⟨s1, b1⟩, hent, hrs⟩ := step_ok h
    obtain ⟨he, hl⟩ := cons_subset.mp hl
    rcases pullEntry_spec he hs hent with ⟨rfl, rfl, hset⟩ | ⟨rfl, hst⟩
    · refine (ih hl hs hrs).imp_left fun ⟨hb, hsm, hall⟩ => ⟨hb, hsm, fun name off hmem hneeded => ?_⟩
      rcases mem_cons.mp hmem with rfl | hmem
      · exact hset _ rfl hneeded
      · exact hall _ off hmem hneeded
    · have hs1 := hs.step hm hst
      rcases ih hl hs1 hrs with ⟨rfl, rfl, -⟩ | ⟨rfl, hs', hpul⟩
      · exact .inr ⟨rfl, hs1, .single hst⟩
      · exact .inr ⟨rfl, hs', .head hst hpul⟩

omit hm

theorem members_of_pulls (h : ReflTransGen (PullStep path buf ar) s s') :
    ∃ new, s'.members = s.members ++ new ∧ new.Nodup ∧ (∀ m ∈ new, m ∉ s.members) ∧
      new ⊆ ar.entries.map fun e => (path, e.2) := by
  induction h with
  | refl => exact ⟨[], (append_nil _).symm, nodup_nil, nofun, nofun⟩
  | tail _ hst ih =>
    obtain ⟨new, hmbs, hnd, hout, hsub⟩ := ih
    cases hst with
    | @pull name off obj hls hneeded hnew hobj =>
      rw [hmbs, mem_append, not_or] at hnew
      refine ⟨new ++ [(path, off)], ?_, ?_, ?_, ?_⟩
      · rw [hmbs, append_assoc]
      · exact nodup_append.mpr ⟨hnd, nodup_singleton _, fun a ha c hc => by grind⟩
      · intro m hmem
        rcases mem_append.mp hmem with hold | hadd
        · exact hout m hold
        · rw [mem_singleton.mp hadd]
          exact hnew.1
      · refine append_subset.mpr ⟨hsub, cons_subset.mpr ⟨mem_map.mpr ⟨_, hls, rfl⟩, nofun⟩⟩

theorem length_lt_of_pulls (h : TransGen (PullStep path buf ar) s s') :
    s.members.length < s'.members.length := by
  have hone : ∀ {t t'}, PullStep path buf ar t t' → t.members.length < t'.members.length := by
    rintro t _ ⟨⟩
    simp
  induction h with
  | single hst => exact hone hst
  | tail _ hst ih => exact ih.trans (hone hst)

include hm

theorem pullLoop_ok {fuel : Nat} (hs : StrongDefs ar.entries s.objs)
    (h : pullLoop path buf ar fuel s = .ok s') :
    ReflTransGen (PullStep path buf ar) s s' ∧
      ∀ name off, (some name, off) ∈ ar.entries → Needed s'.objs name → (path, off) ∈ s'.members := by
  induction fuel generalizing s with
  | zero => cases h
  | succ fuel ih =>
    unfold pullLoop at h
    split at h
    · cases h
    · next s1 hrnd =>
      obtain ⟨hb, -⟩ | ⟨-, hs1, hpul⟩ := pullRound_spec hm (Subset.refl _) hs hrnd
      · cases hb
      · obtain ⟨hrs, hcl⟩ := ih hs1 h
        exact ⟨hpul.to_reflTransGen.trans hrs, hcl⟩
    · next s1 hrnd =>
      cases h
      obtain ⟨-, rfl, hset⟩ | ⟨hb, -⟩ := pullRound_spec hm (Subset.refl _) hs hrnd
      · exact ⟨.refl, hset⟩
      · cases hb

/-- A round that goes on has loaded a member, and the index lists only so many. -/
theorem pullLoop_ends {fuel : Nat} {s0 : Loaded} (hs : StrongDefs ar.entries s.objs)
    (hpld : ReflTransGen (PullStep path buf ar) s0 s)
    (hfu : s0.members.length + ar.entries.length < fuel + s.members.length) :
    pullLoop path buf ar fuel s ≠ .error .spent := by
  induction fuel generalizing s with
  | zero =>
    obtain ⟨new, hmbs, hnd, -, hsub⟩ := members_of_pulls hpld
    have hle := (hnd.subperm hsub).length_le
    rw [length_map] at hle
    rw [hmbs, length_append] at hfu
    omega
  | succ fuel ih =>
    unfold pullLoop
    split
    · nofun
    · next s1 hrnd =>
      obtain ⟨hb, -⟩ | ⟨-, hs1, hpul⟩ := pullRound_spec hm (Subset.refl _) hs hrnd
      · cases hb
      · have hlonger := length_lt_of_pulls hpul
        exact ih hs1 (hpld.trans hpul.to_reflTransGen) (by omega)
    · nofun

/-- Reading an archive settles where no symbol of the index is defined weakly. -/
theorem settles_of_strongDefs (hopen : openArchive path buf = .ok ar) (hs : StrongDefs ar.entries s.objs) :
    Settles path buf ar s := by
  have hrd : ∀ fuel, ldReadArchive path buf fuel s = pullLoop path buf ar fuel s := by
    intro fuel
    rw [ldReadArchive, hopen]
  refine ⟨⟨ar.entries.length + 1, fun fuel hfu => ?_⟩, fun fuel s' h => ?_⟩
  · rw [hrd]
    exact pullLoop_ends hm hs .refl (by omega)
  rw [hrd] at h
  obtain ⟨hpul, hcl⟩ := pullLoop_ok hm hs h
  obtain ⟨new, hmbs, hnd, hout, -⟩ := members_of_pulls hpul
  exact ⟨⟨new, hmbs, hnd, hout⟩, hpul, hcl⟩

end Rounds

/-! ## An archive with one member -/

def words (ws : List Nat) : List UInt8 := ws.flatMap (Lib.Endian.big.encode 4)

/-- An object with the global function `f`: a section `.text` with the one instruction `rts`. -/
def definerBytes : List UInt8 :=
  words [0x7F454C46, 0x01020100, 0, 0, 0x00010004, 1, 0, 0, 52, 0, 0x00340000, 0x00000028, 0x00040003] ++
    words [0, 0, 0, 0, 0, 0, 0, 0, 0, 0] ++
    words [3, 1, 6, 0, 212, 2, 0, 0, 2, 0] ++
    words [0, 2, 0, 0, 216, 16, 3, 0, 4, 16] ++
    words [0, 3, 0, 0, 232, 9, 0, 0, 1, 0] ++
    words [0x4E750000, 1, 0, 2, 0x12000001] ++
    [0, 102, 0, 46, 116, 101, 120, 116, 0]

def definer (binding : Nat) : Object where
  sections :=
    [{ name := [], type := 0, size := 0 },
      { name := ['.', 't', 'e', 'x', 't'], type := shtProgbits, flags := 6, data := [0x4E, 0x75], size := 2,
        align := 2 },
      { name := [], type := shtSymtab, size := 16, align := 4 },
      { name := [], type := 3, size := 9 }]
  syms := [{ name := ['f'], size := 2, shndx := 1, binding := binding, type := 2 }]

/-- The index lists the member for `f`. -/
def oneMember : List UInt8 :=
  [33, 60, 97, 114, 99, 104, 62, 10] ++ 47 :: replicate 47 32 ++ 49 :: 48 :: replicate 10 32 ++
    [0, 0, 0, 1, 0, 0, 0, 78, 102, 0] ++ 102 :: 46 :: 111 :: 47 :: replicate 44 32 ++
    50 :: 52 :: 49 :: replicate 9 32 ++ definerBytes

def oneMemberIndex : ArIndex := ⟨[(some ['f'], 78)], []⟩

def caller : Object := ⟨[], [{ name := ['f'], shndx := shnUndef, binding := stbGlobal }], []⟩

theorem member_parsed : memberAt [] oneMember oneMemberIndex 78 = .ok (definer stbGlobal) := by
  decide +kernel

theorem oneMember_settles : Settles [] oneMember oneMemberIndex ⟨[caller], []⟩ := by
  apply settles_of_strongDefs _ (by decide +kernel)
  · intro y hy _ hdef
    cases mem_singleton.mp hy
    exact absurd rfl hdef
  rintro name off obj hls hobj y hy - -
  cases mem_singleton.mp hls
  cases member_parsed.symm.trans hobj
  cases mem_singleton.mp hy
  exact .inr rfl

/-- The member is loaded though an object has a weak definition of the function. -/
theorem weakDefinition_pulls_member :
    ¬∀ (path : Text) (buf : List UInt8) (ar : ArIndex) (s : Loaded),
      openArchive path buf = .ok ar → Settles path buf ar s := by
  intro h
  have hpld := (h [] oneMember oneMemberIndex ⟨[caller, definer stbWeak], []⟩ (by decide +kernel)).2 2
    ⟨[caller, definer stbWeak, definer stbGlobal], [([], 78)]⟩ (by decide +kernel)
  obtain heq | ⟨t, hst, -⟩ := hpld.needed.cases_head
  · cases heq
  cases hst with
  | pull hls hneeded hnew hobj =>
    cases mem_singleton.mp hls
    exact absurd (hneeded.2 _ (mem_cons_of_mem _ mem_cons_self) rfl (by decide)) (by decide)

end Skjegg.Ld
