import IncrementalSat.SlotMap
import Mathlib.Data.List.Nodup

/-!
# Slots and handles

A handle is its index and its generation. What a handle leads to is described by the slot it was made
for: inserting, removing and replacing each write one slot, and the lemmas here say what this does to
every handle, to the generation of every slot, and to the number of values. No operation allocates a
free slot twice or makes the handle zero.
-/
namespace IncrementalSat

namespace Handle

theorem index_eq (h : Handle) : index h = h.toNat % UInt32.size := by
  unfold index
  rw [UInt64.toNat_and]
  exact Nat.and_two_pow_sub_one_eq_mod h.toNat 32

theorem toNat_generation (h : Handle) : (generation h).toNat = h.toNat / UInt32.size := by
  have := h.toNat_lt
  unfold generation
  rw [UInt64.toNat_toUInt32, UInt64.toNat_shiftRight]
  simp [UInt32.size, Nat.shiftRight_eq_div_pow]
  omega

theorem toNat_make (i g : UInt32) : (make i g).toNat = UInt32.size * g.toNat + i.toNat := by
  have := i.toNat_lt
  have := g.toNat_lt
  unfold make
  simp only [UInt64.toNat_or, UInt64.toNat_shiftLeft, UInt32.toNat_toUInt64]
  simp [Nat.shiftLeft_eq]
  rw [Nat.mod_eq_of_lt (by omega), Nat.mul_comm g.toNat]
  exact (Nat.two_pow_add_eq_or_of_lt (i := 32) (by omega) g.toNat).symm

@[simp] theorem index_make (i g : UInt32) : index (make i g) = i.toNat := by
  rw [index_eq, toNat_make, Nat.mul_add_mod, Nat.mod_eq_of_lt i.toNat_lt]

@[simp] theorem generation_make (i g : UInt32) : generation (make i g) = g := by
  rw [← UInt32.toNat_inj, toNat_generation, toNat_make, Nat.mul_add_div (by decide),
    Nat.div_eq_of_lt i.toNat_lt, Nat.add_zero]

theorem index_lt (h : Handle) : index h < UInt32.size := by
  rw [index_eq]
  exact Nat.mod_lt _ (by decide)

/-- A handle is its index and its generation. -/
theorem eq_of_index_of_generation {h k : Handle} (index_eq' : index h = index k)
    (generation_eq : generation h = generation k) : h = k := by
  rw [← UInt32.toNat_inj, toNat_generation, toNat_generation] at generation_eq
  rw [index_eq, index_eq] at index_eq'
  rw [← UInt64.toNat_inj, ← Nat.div_add_mod h.toNat UInt32.size, generation_eq, index_eq',
    Nat.div_add_mod]

@[simp] theorem generation_zero : generation 0 = 0 := by decide

end Handle

namespace SlotMap

variable {α : Type} {m m' : SlotMap α} {h k : Handle} {a b : α} {i : Nat} {slot : Slot α}

theorem get?_eq_some_iff :
    m.get? h = some a ↔ m.slots[Handle.index h]? = some ⟨Handle.generation h, some a⟩ := by
  unfold get? slotAt?
  cases m.slots[Handle.index h]? with
  | none => simp
  | some slot =>
    obtain ⟨generation, value⟩ := slot
    by_cases same : generation = Handle.generation h
    · simp [Option.filter, same]
    · simp [Option.filter, same]

theorem generationAt_of_slot (found : m.slots[i]? = some slot) :
    m.generationAt i = slot.generation := by
  unfold generationAt
  rw [found]

theorem generationAt_of_get? (found : m.get? h = some a) :
    m.generationAt (Handle.index h) = Handle.generation h :=
  generationAt_of_slot (get?_eq_some_iff.1 found)

theorem get_of_get? (found : m.get? h = some a) : m.get h = .ok a := by
  unfold get
  rw [found]

theorem get_of_none (absent : m.get? h = none) : m.get h = .error (.invalidHandle h) := by
  unfold get
  rw [absent]

/-! ## Writing a slot -/

/-- The slots of `m'` are those of `m`, except for the one with this index. -/
def Writes (m m' : SlotMap α) (i : Nat) (slot : Slot α) : Prop :=
  ∀ j, m'.slots[j]? = if j = i then some slot else m.slots[j]?

namespace Writes

theorem of_setIfInBounds (inside : i < m.slots.size) (slot : Slot α) (free : List UInt32)
    (size : Nat) :
    m.Writes ⟨m.slots.setIfInBounds i slot, free, size⟩ i slot := by
  intro j
  simp only [Array.getElem?_setIfInBounds]
  by_cases same : j = i
  · simp [same, inside]
  · simp [same, Ne.symm same]

theorem of_push (slot : Slot α) (free : List UInt32) (size : Nat) :
    m.Writes ⟨m.slots.push slot, free, size⟩ m.slots.size slot := by
  intro j
  simp only [Array.getElem?_push]

theorem generationAt (writes : m.Writes m' i slot) (j : Nat) :
    m'.generationAt j = if j = i then slot.generation else m.generationAt j := by
  unfold SlotMap.generationAt
  rw [writes j]
  by_cases same : j = i
  · simp [same]
  · simp [same]

/-- The new slot answers for the handle with its index and its generation. -/
theorem get? (writes : m.Writes m' i slot) (h : Handle) : m'.get? h =
    if Handle.index h = i then if slot.generation = Handle.generation h then slot.value else none
    else m.get? h := by
  unfold SlotMap.get? slotAt?
  rw [writes]
  by_cases same : Handle.index h = i
  · by_cases current : slot.generation = Handle.generation h
    · simp [same, current, Option.filter]
    · simp [same, current, Option.filter]
  · simp [same]

/-- A value put under a handle is found there, if it is the only handle of its slot to lead
anywhere. -/
theorem get?_of_only (writes : m.Writes m' (Handle.index k) ⟨Handle.generation k, some a⟩)
    (only : ∀ h, Handle.index h = Handle.index k → h ≠ k → m.get? h = none) (h : Handle) :
    m'.get? h = if h = k then some a else m.get? h := by
  rw [writes.get?]
  by_cases eq : h = k
  · simp [eq]
  · rw [if_neg eq]
    by_cases shared : Handle.index h = Handle.index k
    · rw [if_pos shared, only h shared eq, if_neg]
      intro current
      exact eq (Handle.eq_of_index_of_generation shared current.symm)
    · rw [if_neg shared]

end Writes

/-- Two handles of one slot do not both lead to a value. -/
theorem get?_eq_none_of_get? (found : m.get? k = some a) (shared : Handle.index h = Handle.index k)
    (other : h ≠ k) : m.get? h = none := by
  cases also : m.get? h with
  | none => rfl
  | some b =>
    have generation := generationAt_of_get? also
    rw [shared, generationAt_of_get? found] at generation
    exact absurd (Handle.eq_of_index_of_generation shared generation.symm) other

/-! ## Well-formed slot maps -/

/-- The free slots are listed once each and hold nothing, and no slot is in generation zero. -/
structure WellFormed (m : SlotMap α) : Prop where
  nodup : m.free.Nodup
  vacant : ∀ i ∈ m.free, ∃ generation, m.slots[i.toNat]? = some ⟨generation, none⟩
  started : ∀ i, m.generationAt i ≠ 0

theorem WellFormed.empty : (SlotMap.empty : SlotMap α).WellFormed where
  nodup := List.nodup_nil
  vacant := nofun
  started := by
    intro i
    simp [SlotMap.empty, generationAt]

/-- What inserting a value does: it is found under a handle that led nowhere before. -/
structure Inserts (m : SlotMap α) (a : α) (k : Handle) (m' : SlotMap α) : Prop where
  wellFormed : m'.WellFormed
  unused : m.get? k = none
  generation : Handle.generation k = m.generationAt (Handle.index k)
  get? : ∀ h, m'.get? h = if h = k then some a else m.get? h
  generationAt : ∀ i, m'.generationAt i = m.generationAt i
  size : m'.size = m.size + 1
  grows : m.slots.size ≤ m'.slots.size

theorem Inserts.nonzero (inserts : m.Inserts a k m') (wf : m.WellFormed) : k ≠ 0 := by
  rintro rfl
  exact wf.started _ (inserts.generation.symm.trans Handle.generation_zero)

/-- A slot that holds nothing makes no handle lead anywhere. -/
theorem get?_eq_none_of_vacant (vacant : ∀ slot, m.slots[i]? = some slot → slot.value = none)
    (index : Handle.index h = i) : m.get? h = none := by
  cases found : m.get? h with
  | none => rfl
  | some a =>
    rw [get?_eq_some_iff, index] at found
    cases vacant _ found

theorem Inserts.of_writes {k : Handle} (wf : m'.WellFormed)
    (writes : m.Writes m' (Handle.index k) ⟨Handle.generation k, some a⟩)
    (vacant : ∀ slot, m.slots[Handle.index k]? = some slot → slot.value = none)
    (generation : Handle.generation k = m.generationAt (Handle.index k))
    (size : m'.size = m.size + 1) (grows : m.slots.size ≤ m'.slots.size) : m.Inserts a k m' where
  wellFormed := wf
  unused := get?_eq_none_of_vacant vacant rfl
  generation := generation
  get? := writes.get?_of_only fun _ shared _ => get?_eq_none_of_vacant vacant shared
  generationAt := by
    intro i
    rw [writes.generationAt]
    split
    · rename_i same
      rw [same]
      exact generation
    · rfl
  size := size
  grows := grows

/-- A free slot is taken in the generation that it is in. -/
theorem WellFormed.inserts_of_free (wf : m.WellFormed) {i : UInt32} {free : List UInt32}
    (listed : m.free = i :: free) (a : α) :
    m.Inserts a (.make i (m.generationAt i.toNat))
      ⟨m.slots.setIfInBounds i.toNat ⟨m.generationAt i.toNat, some a⟩, free, m.size + 1⟩ := by
  obtain ⟨generation, vacant⟩ := wf.vacant i (listed ▸ List.mem_cons_self)
  have inside := (Array.getElem?_eq_some_iff.1 vacant).1
  have nodup := List.nodup_cons.1 (listed ▸ wf.nodup)
  have writes := Writes.of_setIfInBounds inside ⟨m.generationAt i.toNat, some a⟩ free (m.size + 1)
  have wf' : WellFormed (⟨m.slots.setIfInBounds i.toNat ⟨m.generationAt i.toNat, some a⟩, free,
      m.size + 1⟩ : SlotMap α) := by
    constructor
    · exact nodup.2
    · intro j mem
      have other : j.toNat ≠ i.toNat := by
        intro same
        exact nodup.1 (UInt32.toNat_inj.1 same ▸ mem)
      rw [writes, if_neg other]
      exact wf.vacant j (listed ▸ List.mem_cons_of_mem i mem)
    · intro j
      rw [writes.generationAt]
      split
      · exact wf.started _
      · exact wf.started j
  refine .of_writes wf' (by simpa using writes) ?_ (by simp) rfl (by simp)
  intro slot found
  rw [Handle.index_make, vacant] at found
  cases found
  rfl

/-- Without a free slot a new one is added, in its first generation. -/
theorem WellFormed.inserts_of_room (wf : m.WellFormed) (listed : m.free = [])
    (room : m.slots.size < UInt32.size) (a : α) :
    m.Inserts a (.make (.ofNat m.slots.size) 1)
      ⟨m.slots.push ⟨1, some a⟩, m.free, m.size + 1⟩ := by
  have index : (UInt32.ofNat m.slots.size).toNat = m.slots.size := UInt32.toNat_ofNat_of_lt room
  have fresh : m.slots[m.slots.size]? = none := Array.getElem?_eq_none (Nat.le_refl _)
  have writes := Writes.of_push (m := m) ⟨1, some a⟩ m.free (m.size + 1)
  have wf' : WellFormed (⟨m.slots.push ⟨1, some a⟩, m.free, m.size + 1⟩ : SlotMap α) := by
    constructor
    · exact wf.nodup
    · intro j mem
      rw [listed] at mem
      cases mem
    · intro j
      rw [writes.generationAt]
      split
      · simp
      · exact wf.started j
  refine .of_writes wf' (by simpa [index] using writes) ?_
    (by simp [index, SlotMap.generationAt]) rfl (by simp)
  intro slot found
  rw [Handle.index_make, index, fresh] at found
  cases found

theorem WellFormed.inserts (wf : m.WellFormed) (inserted : m.insert a = .ok (k, m')) :
    m.Inserts a k m' := by
  unfold insert at inserted
  split at inserted
  · next i free listed =>
    cases inserted
    exact wf.inserts_of_free listed a
  · next listed =>
    split at inserted
    · next room =>
      cases inserted
      exact wf.inserts_of_room listed room a
    · cases inserted

/-- Inserting fails only if all slots there can be are taken. -/
theorem full_of_insert {e : Error} (failed : m.insert a = .error e) :
    e = .outOfMemory ∧ UInt32.size ≤ m.slots.size := by
  unfold insert at failed
  split at failed
  · cases failed
  · split at failed
    · cases failed
    · rename_i full
      cases failed
      exact ⟨rfl, Nat.le_of_not_lt full⟩

/-! ## Removing -/

theorem nextGeneration_ne (g : UInt32) : nextGeneration g ≠ 0 := by
  unfold nextGeneration
  split
  · decide
  · assumption

/-- The next generation is one higher, unless generations run out. -/
theorem toNat_nextGeneration {g : UInt32} (below : g.toNat + 1 < UInt32.size) :
    (nextGeneration g).toNat = g.toNat + 1 := by
  have sum : (g + 1).toNat = g.toNat + 1 := by
    rw [UInt32.toNat_add]
    exact Nat.mod_eq_of_lt below
  unfold nextGeneration
  rw [if_neg, sum]
  intro zero
  rw [zero] at sum
  exact absurd sum (by simp)

/-- What removing a value does: its handle leads nowhere afterwards, and its slot is in the next
generation. -/
structure Removes (m : SlotMap α) (h : Handle) (m' : SlotMap α) : Prop where
  wellFormed : m'.WellFormed
  get? : ∀ k, m'.get? k = if k = h then none else m.get? k
  generationAt : ∀ i, m'.generationAt i =
    if i = Handle.index h then nextGeneration (Handle.generation h) else m.generationAt i
  size : m'.size = m.size - 1
  slots : m'.slots.size = m.slots.size

theorem remove_of_none (absent : m.get? h = none) : m.remove h = .error (.invalidHandle h) := by
  unfold remove
  rw [absent]

theorem WellFormed.removes (wf : m.WellFormed) (found : m.get? h = some a) :
    ∃ m', m.remove h = .ok (a, m') ∧ m.Removes h m' := by
  have slot := get?_eq_some_iff.1 found
  have inside := (Array.getElem?_eq_some_iff.1 slot).1
  have index : (UInt32.ofNat (Handle.index h)).toNat = Handle.index h :=
    UInt32.toNat_ofNat_of_lt h.index_lt
  have taken : .ofNat (Handle.index h) ∉ m.free := by
    intro mem
    obtain ⟨_, vacant⟩ := wf.vacant _ mem
    rw [index, slot] at vacant
    cases vacant
  have writes := Writes.of_setIfInBounds inside ⟨nextGeneration (Handle.generation h), none⟩
    (.ofNat (Handle.index h) :: m.free) (m.size - 1)
  unfold remove
  rw [found]
  refine ⟨_, rfl, ⟨?_, ?_, ?_⟩, ?_, ?_, rfl, by simp⟩
  · exact List.nodup_cons.2 ⟨taken, wf.nodup⟩
  · intro i mem
    rw [writes]
    split
    · exact ⟨_, rfl⟩
    · rename_i other
      rcases List.mem_cons.1 mem with rfl | mem
      · exact absurd index other
      · exact wf.vacant i mem
  · intro i
    rw [writes.generationAt]
    split
    · exact nextGeneration_ne _
    · exact wf.started i
  · intro k
    rw [writes.get?]
    by_cases eq : k = h
    · simp [eq]
    · rw [if_neg eq]
      by_cases shared : Handle.index k = Handle.index h
      · rw [if_pos shared, get?_eq_none_of_get? found shared eq, ite_self]
      · rw [if_neg shared]
  · exact writes.generationAt

/-! ## Replacing -/

/-- Putting back what is there changes nothing. -/
theorem set_self (found : m.get? h = some a) : m.set h a = m := by
  have slot := get?_eq_some_iff.1 found
  have inside := (Array.getElem?_eq_some_iff.1 slot).1
  have writes := Writes.of_setIfInBounds inside ⟨Handle.generation h, some a⟩ m.free m.size
  have same : m.slots.setIfInBounds (Handle.index h) ⟨Handle.generation h, some a⟩ = m.slots := by
    apply Array.ext_getElem?
    intro j
    rw [writes]
    split
    · rename_i at_index
      rw [at_index, slot]
    · rfl
  unfold set
  rw [found]
  dsimp only
  rw [same]

/-- What replacing a value does. -/
structure Replaces (m : SlotMap α) (h : Handle) (b : α) (m' : SlotMap α) : Prop where
  wellFormed : m'.WellFormed
  get? : ∀ k, m'.get? k = if k = h then some b else m.get? k
  generationAt : ∀ i, m'.generationAt i = m.generationAt i
  size : m'.size = m.size
  slots : m'.slots.size = m.slots.size

theorem WellFormed.replaces (wf : m.WellFormed) (found : m.get? h = some a) (b : α) :
    m.Replaces h b (m.set h b) := by
  have slot := get?_eq_some_iff.1 found
  have inside := (Array.getElem?_eq_some_iff.1 slot).1
  have writes := Writes.of_setIfInBounds inside ⟨Handle.generation h, some b⟩ m.free m.size
  have generations : ∀ i, (m.set h b).generationAt i = m.generationAt i := by
    intro i
    unfold set
    rw [found, writes.generationAt]
    split
    · rename_i same
      rw [same, generationAt_of_get? found]
    · rfl
  unfold set at generations ⊢
  rw [found] at generations ⊢
  refine ⟨⟨wf.nodup, ?_, ?_⟩, ?_, generations, rfl, by simp⟩
  · intro i mem
    obtain ⟨generation, vacant⟩ := wf.vacant i mem
    refine ⟨generation, ?_⟩
    rw [writes, if_neg, vacant]
    intro same
    rw [same, slot] at vacant
    cases vacant
  · intro i
    rw [generations]
    exact wf.started i
  · exact writes.get?_of_only fun _ shared other => get?_eq_none_of_get? found shared other

end SlotMap

end IncrementalSat
