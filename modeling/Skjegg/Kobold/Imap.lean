import Skjegg.Kobold.Map

/-!
# Ordinal-keyed maps

The `map[K] of T` of `kobold/map.c`: the table of the string-keyed map, with 64-bit keys held by value.  Every
key is valid, so a slot's state stands beside it and not in its place.
-/

namespace Skjegg.Kobold

open Skjegg.Lib

/-- A slot by its state; the key left in a deleted slot is not read. -/
inductive ISlot
  | empty
  | tomb
  | live (key : BitVec 64)
  deriving DecidableEq

/-- The map object.  `slots` are the blocks of keys and of states. -/
structure KpImap where
  refcount : Nat
  count : Nat
  tombs : Nat
  cap : Nat
  elemsize : Nat
  slots : List ISlot
  vals : List Bytes
  modcount : Nat

variable (m : KpImap)

def islotAt (i : Nat) : ISlot := m.slots.getD i .empty

variable (key : BitVec 64)

def ihashKey : U32 :=
  let h := (key ^^^ key >>> 33) * 0xff51afd7ed558ccd#64
  let h := (h ^^^ h >>> 33) * 0xc4ceb9fe1a85ec53#64
  (h ^^^ h >>> 33).setWidth 32

def kpImapNew (elemsize : Nat) : KpImap :=
  { refcount := 1, count := 0, tombs := 0, cap := 0, elemsize := elemsize, slots := [], vals := [],
    modcount := 0 }

/-- The slot a live entry goes to in the new table of `imap_grow`. -/
def freeSlotLoop (slots : List ISlot) (mask : Nat) : Nat → Nat → Option Nat
  | 0, _ => none
  | fuel + 1, j =>
      match slots.getD j .empty with
      | .live _ => freeSlotLoop slots mask fuel ((j + 1) &&& mask)
      | _ => some j

def igrowStep (newcap : Nat) (b : List ISlot × List Bytes) (i : Nat) : Option (List ISlot × List Bytes) :=
  match islotAt m i with
  | .live k =>
      let mask := newcap - 1
      match freeSlotLoop b.1 mask newcap ((ihashKey k).toNat &&& mask) with
      | none => none
      | some j => some (b.1.set j (.live k), b.2.set j (m.vals.getD i []))
  | _ => some b

def imapGrow (newcap : Nat) : Option KpImap :=
  match (List.range m.cap).foldlM (igrowStep m newcap)
      (List.replicate newcap .empty, List.replicate newcap []) with
  | none => none
  | some (ns, nv) => some { m with slots := ns, vals := nv, cap := newcap, tombs := 0 }

def imapFindLoop (m : KpImap) (key : BitVec 64) (mask : Nat) : Nat → Nat → Option (Option Nat)
  | 0, _ => none
  | fuel + 1, i =>
      match islotAt m i with
      | .empty => some none
      | s => if s = .live key then some (some i) else imapFindLoop m key mask fuel ((i + 1) &&& mask)

def imapFind : Option (Option Nat) :=
  if m.cap = 0 then some none
  else
    let mask := m.cap - 1
    imapFindLoop m key mask m.cap ((ihashKey key).toNat &&& mask)

def iinsertAt (i : Nat) (tomb : Option Nat) : KpImap :=
  let slot := tomb.getD i
  { m with
    slots := m.slots.set slot (.live key)
    vals := m.vals.set slot (List.replicate m.elemsize 0)
    count := m.count + 1
    tombs := if tomb = some slot then m.tombs - 1 else m.tombs
    modcount := (m.modcount + 1) % 2 ^ 32 }

def ireserveLoop (m : KpImap) (key : BitVec 64) (mask : Nat) : Nat → Nat → Option Nat → Option KpImap
  | 0, _, _ => none
  | fuel + 1, i, tomb =>
      match islotAt m i with
      | .empty => some (iinsertAt m key i tomb)
      | .tomb => ireserveLoop m key mask fuel ((i + 1) &&& mask) (if tomb = none then some i else tomb)
      | .live k => if k = key then some m else ireserveLoop m key mask fuel ((i + 1) &&& mask) tomb

def igrowForOne : Option KpImap :=
  if m.cap = 0 then imapGrow m mapInitCap
  else if (m.count + m.tombs + 1) * 4 ≥ m.cap * 3 then imapGrow m (m.cap * 2)
  else some m

def kpImapReserve (a : Option KpImap) (key : BitVec 64) (elemsize : Nat) : Option KpImap :=
  let m := match a with
    | none => kpImapNew elemsize
    | some m => { m with refcount := (m.refcount + 1) % 2 ^ 32 }
  match igrowForOne m with
  | none => none
  | some m =>
      let mask := m.cap - 1
      ireserveLoop m key mask m.cap ((ihashKey key).toNat &&& mask) none

def kpImapGet (a : Option KpImap) (key : BitVec 64) : Option (Option Nat) :=
  match a with
  | none => some none
  | some m => imapFind m key

def imapDelInplace : Option KpImap :=
  match imapFind m key with
  | none => none
  | some none => some m
  | some (some i) =>
      some { m with
        slots := m.slots.set i .tomb
        count := m.count - 1
        tombs := m.tombs + 1
        modcount := (m.modcount + 1) % 2 ^ 32 }

def kpImapDel : Option KpImap :=
  match imapDelInplace m key with
  | none => none
  | some m => some { m with refcount := (m.refcount + 1) % 2 ^ 32 }

end Skjegg.Kobold
