import Skjegg.Lib.Run
import Skjegg.Lib.Words

/-!
# String-keyed maps

The `map of T` of `kobold/map.c`: an open-addressed table of string handles with linear probing,
growth at three quarters and tombstones. Allocation does not fail here: it would end the program. A
probe loop that has seen every slot without stopping never stops.
-/

namespace Skjegg.Kobold

open Skjegg.Lib

abbrev Bytes := List (BitVec 8)

abbrev Gptr := Nat

/-- The bytes of the strings by handle.  The nil handle is the empty string. -/
structure Strings where
  bytes : Gptr → Bytes
  nil_empty : bytes 0 = []

def memcmp : Bytes → Bytes → Int
  | a :: as, b :: bs => if a = b then memcmp as bs else if a < b then -1 else 1
  | _, _ => 0

variable (σ : Strings)

def strCmp (a b : Gptr) : Int :=
  let la := (σ.bytes a).length
  let lb := (σ.bytes b).length
  let n := min la lb
  let r := memcmp ((σ.bytes a).take n) ((σ.bytes b).take n)
  if r ≠ 0 then if r < 0 then -1 else 1
  else if la ≠ lb then if la < lb then -1 else 1
  else 0

def keyEmpty : Gptr := 0
def keyTomb : Gptr := 1
def mapInitCap : Nat := 8

/-- The map object.  `keys` and `vals` are the two blocks of `cap` slots. -/
structure KpMap where
  (refcount count tombs cap elemsize : Nat)
  keys : List Gptr
  vals : List Bytes
  modcount : Nat
  deriving DecidableEq, Repr

variable (m : KpMap)

def keyAt (i : Nat) : Gptr := m.keys.getD i keyEmpty

def valAt (i : Nat) : Bytes := m.vals.getD i []

def fnv1a (b : Bytes) : U32 := b.foldl (fun h c => (h ^^^ c.setWidth 32) * 16777619#32) 2166136261#32

variable (key : Gptr)

def hashKey : U32 := fnv1a (σ.bytes key)

def keyEq (a b : Gptr) : Bool := a == b || strCmp σ a b == 0

def kpMapNew (elemsize : Nat) : KpMap :=
  { refcount := 1, count := 0, tombs := 0, cap := 0, elemsize := elemsize, keys := [], vals := [],
    modcount := 0 }

/-- The slot a live entry goes to in the new table of `map_grow`. -/
def emptySlotLoop (keys : List Gptr) (mask : Nat) : Nat → Nat → Option Nat
  | 0, _ => none
  | fuel + 1, j =>
    if keys.getD j keyEmpty ≠ keyEmpty then emptySlotLoop keys mask fuel ((j + 1) &&& mask)
    else some j

def growStep (newcap : Nat) (b : List Gptr × List Bytes) (i : Nat) :
    Option (List Gptr × List Bytes) :=
  let k := keyAt m i
  if k = keyEmpty ∨ k = keyTomb then some b
  else
    let mask := newcap - 1
    match emptySlotLoop b.1 mask newcap ((hashKey σ k).toNat &&& mask) with
    | none => none
    | some j => some (b.1.set j k, b.2.set j (valAt m i))

/-- `map_grow`, for blocks below 2^32 bytes.  The new value block holds nothing yet: a value is read
only after it was stored. -/
def mapGrow (newcap : Nat) : Option KpMap :=
  match (List.range m.cap).foldlM (growStep σ m newcap)
      (List.replicate newcap keyEmpty, List.replicate newcap []) with
  | none => none
  | some (nk, nv) => some { m with keys := nk, vals := nv, cap := newcap, tombs := 0 }

def mapFindLoop (σ : Strings) (m : KpMap) (key : Gptr) (mask : Nat) : Nat → Nat → Option (Option Nat)
  | 0, _ => none
  | fuel + 1, i =>
    let k := keyAt m i
    if k = keyEmpty then some none
    else if k ≠ keyTomb ∧ keyEq σ k key then some (some i)
    else mapFindLoop σ m key mask fuel ((i + 1) &&& mask)

def mapFind : Option (Option Nat) :=
  if m.cap = 0 then some none
  else
    let mask := m.cap - 1
    mapFindLoop σ m key mask m.cap ((hashKey σ key).toNat &&& mask)

/-- The insertion at the end of a probe: into the first tombstone passed, or into the empty slot
that ended it. -/
def insertAt (i : Nat) (tomb : Option Nat) : KpMap :=
  let slot := tomb.getD i
  { m with
    keys := m.keys.set slot key
    vals := m.vals.set slot (List.replicate m.elemsize 0)
    count := m.count + 1
    tombs := if tomb = some slot then m.tombs - 1 else m.tombs
    modcount := (m.modcount + 1) % 2 ^ 32 }

def reserveLoop (σ : Strings) (m : KpMap) (key : Gptr) (mask : Nat) :
    Nat → Nat → Option Nat → Option KpMap
  | 0, _, _ => none
  | fuel + 1, i, tomb =>
    let k := keyAt m i
    if k = keyEmpty then some (insertAt m key i tomb)
    else if k = keyTomb then
      reserveLoop σ m key mask fuel ((i + 1) &&& mask) (if tomb = none then some i else tomb)
    -- already present: its value slot is reused in place
    else if keyEq σ k key then some m
    else reserveLoop σ m key mask fuel ((i + 1) &&& mask) tomb

def growForOne : Option KpMap :=
  if m.cap = 0 then mapGrow σ m mapInitCap
  else if (m.count + m.tombs + 1) * 4 ≥ m.cap * 3 then mapGrow σ m (m.cap * 2)
  else some m

variable (a : Option KpMap)

/-- `kp_map_reserve` on the object behind the handle, or on none for the nil handle. -/
def kpMapReserve (key : Gptr) (elemsize : Nat) : Option KpMap :=
  let m := match a with
    | none => kpMapNew elemsize
    | some m => { m with refcount := (m.refcount + 1) % 2 ^ 32 }
  match growForOne σ m with
  | none => none
  | some m =>
    let mask := m.cap - 1
    reserveLoop σ m key mask m.cap ((hashKey σ key).toNat &&& mask) none

/-- `kp_map_get`: the slot whose address it returns; no slot is the key trap. -/
def kpMapGet (key : Gptr) : Option (Option Nat) :=
  match a with
  | none => some none
  | some m => mapFind σ m key

def kpMapTryget (key : Gptr) : Option (Option Bytes) :=
  match a with
  | none => some none
  | some m =>
    match mapFind σ m key with
    | none => none
    | some r => some (r.map (valAt m))

def mapDelInplace : Option KpMap :=
  match mapFind σ m key with
  | none => none
  | some none => some m
  | some (some i) =>
    some { m with
      keys := m.keys.set i keyTomb
      count := m.count - 1
      tombs := m.tombs + 1
      modcount := (m.modcount + 1) % 2 ^ 32 }

def kpMapDel : Option KpMap :=
  match mapDelInplace σ m key with
  | none => none
  | some m => some { m with refcount := (m.refcount + 1) % 2 ^ 32 }

def kpMapClone : KpMap :=
  let c := kpMapNew m.elemsize
  if m.cap > 0 then
    { c with keys := m.keys, vals := m.vals, cap := m.cap, count := m.count, tombs := m.tombs }
  else c

/-! ## Programs on maps -/

/-- The strings and the map objects of a program.  A map handle is nil or the number of an object. -/
structure World where
  strings : Strings
  maps : List KpMap

abbrev MapRef := Option Nat

/-- What a program does to its maps. `insert` is `m[key] := v`, which reserves the key and stores
through `kp_map_get`; `strings` is whatever happens to the strings. -/
inductive MapOp where
  | insert (r : MapRef) (key : Gptr) (elemsize : Nat) (v : Bytes)
  | lookup (r : MapRef) (key : Gptr)
  | delete (r : MapRef) (key : Gptr)
  | clone (r : MapRef)
  | strings (σ : Strings)

inductive MapOut where
  | handle (r : MapRef)
  | value (v : Option Bytes)
  | trapKey
  | done
  deriving DecidableEq, Repr

def World.deref (w : World) : MapRef → Option KpMap
  | none => none
  | some i => w.maps[i]?

def World.put (w : World) (r : MapRef) (m : KpMap) : World × MapRef :=
  match r with
  | none => ({ w with maps := w.maps ++ [m] }, some w.maps.length)
  | some i => ({ w with maps := w.maps.set i m }, r)

def mapStep (w : World) : MapOp → Option (World × MapOut)
  | .insert r key elemsize v =>
    match kpMapReserve w.strings (w.deref r) key elemsize with
    | none => none
    | some m =>
      match kpMapGet w.strings (some m) key with
      | none => none
      | some none => some ((w.put r m).1, .trapKey)
      | some (some i) =>
        let (w', r') := w.put r { m with vals := m.vals.set i v }
        some (w', .handle r')
  | .lookup r key =>
    match kpMapTryget w.strings (w.deref r) key with
    | none => none
    | some v => some (w, .value v)
  | .delete r key =>
    match w.deref r with
    | none => some (w, .handle none)
    | some m =>
      match kpMapDel w.strings m key with
      | none => none
      | some m' =>
        let (w', r') := w.put r m'
        some (w', .handle r')
  | .clone r =>
    match w.deref r with
    | none => some (w, .handle none)
    | some m =>
      let (w', r') := w.put none (kpMapClone m)
      some (w', .handle r')
  | .strings σ => some ({ w with strings := σ }, .done)

end Skjegg.Kobold
