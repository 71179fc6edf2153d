import IncrementalSat.Error

/-!
# Slot maps

Values under handles. A handle is a 64-bit word: the index of a slot in the lower half, and in the
upper half the generation of the slot when the value was put there. Removing a value raises the
generation, so the handle leads nowhere afterwards, even if the slot is used again. Generation zero
is left out, so no handle is zero. Of the free slots, the one freed last is used first.
-/
namespace IncrementalSat

/-- A word that may lead to a value. -/
abbrev Handle := UInt64

namespace Handle

def make (index : UInt32) (generation : UInt32) : Handle :=
  generation.toUInt64 <<< 32 ||| index.toUInt64

def index (h : Handle) : Nat := (h &&& 0xffffffff).toNat

def generation (h : Handle) : UInt32 := (h >>> 32).toUInt32

end Handle

structure Slot (α : Type) where
  generation : UInt32
  value : Option α
  deriving DecidableEq, Repr

structure SlotMap (α : Type) where
  slots : Array (Slot α) := #[]
  /-- The indices of the free slots, the one freed last in front. -/
  free : List UInt32 := []
  /-- The number of values. -/
  size : Nat := 0
  deriving DecidableEq, Repr

namespace SlotMap

variable {α : Type}

def empty : SlotMap α := {}

def isEmpty (m : SlotMap α) : Bool := m.size == 0

/-- The slot a handle leads to, if the generations agree. -/
def slotAt? (m : SlotMap α) (h : Handle) : Option (Slot α) :=
  m.slots[Handle.index h]?.filter fun slot => slot.generation == Handle.generation h

/-- The value under a handle. -/
def get? (m : SlotMap α) (h : Handle) : Option α := (m.slotAt? h).bind (·.value)

def get (m : SlotMap α) (h : Handle) : Except Error α :=
  match m.get? h with
  | none => .error (.invalidHandle h)
  | some a => .ok a

/-- The generation a slot is in. An unused slot starts with the first. -/
def generationAt (m : SlotMap α) (index : Nat) : UInt32 :=
  match m.slots[index]? with
  | none => 1
  | some slot => slot.generation

/-- Adds a value in a free slot, or else in a new one. There are at most `2 ^ 32` slots. -/
def insert (m : SlotMap α) (a : α) : Except Error (Handle × SlotMap α) :=
  match m.free with
  | i :: free =>
    let generation := m.generationAt i.toNat
    .ok (.make i generation,
      { m with
        slots := m.slots.setIfInBounds i.toNat ⟨generation, some a⟩
        free
        size := m.size + 1 })
  | [] =>
    if m.slots.size < UInt32.size then
      .ok (.make (.ofNat m.slots.size) 1,
        { m with slots := m.slots.push ⟨1, some a⟩, size := m.size + 1 })
    else .error .outOfMemory

/-- The generation after another one: the next word, except zero. -/
def nextGeneration (g : UInt32) : UInt32 := if g + 1 = 0 then 1 else g + 1

/-- Takes the value under a handle out and frees its slot. -/
def remove (m : SlotMap α) (h : Handle) : Except Error (α × SlotMap α) :=
  match m.get? h with
  | none => .error (.invalidHandle h)
  | some a =>
    let index := Handle.index h
    .ok (a,
      { slots := m.slots.setIfInBounds index ⟨nextGeneration (Handle.generation h), none⟩
        free := .ofNat index :: m.free
        size := m.size - 1 })

/-- Replaces the value under a handle. A handle that leads nowhere changes nothing. -/
def set (m : SlotMap α) (h : Handle) (a : α) : SlotMap α :=
  match m.get? h with
  | none => m
  | some _ =>
    { m with slots := m.slots.setIfInBounds (Handle.index h) ⟨Handle.generation h, some a⟩ }

end SlotMap

end IncrementalSat
