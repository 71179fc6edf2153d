import IncrementalSat.Proofs.SlotMap.Basic
import Mathlib.Data.List.Induction

/-!
# Handles that are never issued twice

A log records how a slot map was used. It determines a map: a handle leads to the value stored last
under it, from the moment it was issued until it is removed. As long as there is room for another
slot and no slot ran out of generations, a slot map is this map, whatever words are taken for
handles: every handle is issued once, and one that is not live is rejected without any effect.

A slot is as many generations ahead as values were removed from it. So a handle that was issued and
leads nowhere belongs to an earlier generation of its slot, and the slot is not in that generation
again.
-/
namespace IncrementalSat

namespace SlotMap

/-- A use of a slot map. -/
inductive Access (α : Type) where
  | insert (a : α)
  | remove (h : Handle)
  | get (h : Handle)
  | set (h : Handle) (a : α)
  deriving DecidableEq, Repr

/-- What comes back. Setting a value answers the one it replaces. -/
inductive Outcome (α : Type) where
  | issued (h : Handle)
  | found (a : α)
  | rejected (e : Error)
  deriving DecidableEq, Repr

variable {α : Type}

/-- The handle that is used. -/
def Access.handle? : Access α → Option Handle
  | .insert _ => none
  | .remove h => some h
  | .get h => some h
  | .set h _ => some h

def access (m : SlotMap α) : Access α → Outcome α × SlotMap α
  | .insert a =>
    match m.insert a with
    | .error e => (.rejected e, m)
    | .ok (h, m) => (.issued h, m)
  | .remove h =>
    match m.remove h with
    | .error e => (.rejected e, m)
    | .ok (a, m) => (.found a, m)
  | .get h =>
    match m.get h with
    | .error e => (.rejected e, m)
    | .ok a => (.found a, m)
  | .set h b =>
    match m.get h with
    | .error e => (.rejected e, m)
    | .ok a => (.found a, m.set h b)

/-- What was done and what came back, the latest first. -/
abbrev Log (α : Type) := List (Access α × Outcome α)

namespace Log

/-- The handles that were issued. -/
def issued : Log α → List Handle
  | [] => []
  | (.insert _, .issued k) :: log => k :: issued log
  | _ :: log => issued log

/-- The value stored last under a handle, if it was issued and not removed since. -/
def valueOf (h : Handle) : Log α → Option α
  | [] => none
  | (.insert a, .issued k) :: log => if h = k then some a else valueOf h log
  | (.remove k, .found _) :: log => if h = k then none else valueOf h log
  | (.set k b, .found _) :: log =>
    if h = k then (valueOf h log).map fun _ => b else valueOf h log
  | _ :: log => valueOf h log

/-- The handles that lead to a value. -/
def live (log : Log α) : List Handle := log.issued.filter fun h => (log.valueOf h).isSome

/-- How often a value was removed from a slot. -/
def removals (i : Nat) : Log α → Nat
  | [] => 0
  | (.remove k, .found _) :: log => if i = Handle.index k then removals i log + 1 else removals i log
  | _ :: log => removals i log

end Log

/-- Uses a slot map and records it. -/
def record (r : Log α × SlotMap α) (x : Access α) : Log α × SlotMap α :=
  ((x, (r.2.access x).1) :: r.1, (r.2.access x).2)

/-- Uses a new slot map. -/
def run (xs : List (Access α)) : Log α × SlotMap α := xs.foldl record ([], .empty)

variable {m m' : SlotMap α} {log : Log α} {x : Access α} {outcome : Outcome α} {h k : Handle}
  {a b : α} {xs : List (Access α)}

/-! ## What an access does -/

inductive Effect (m : SlotMap α) : Access α → Outcome α → SlotMap α → Prop
  | inserted {a : α} {k : Handle} {m' : SlotMap α} (inserts : m.Inserts a k m') :
      Effect m (.insert a) (.issued k) m'
  | full {a : α} (taken : UInt32.size ≤ m.slots.size) :
      Effect m (.insert a) (.rejected .outOfMemory) m
  | removed {h : Handle} {a : α} {m' : SlotMap α} (found : m.get? h = some a)
      (removes : m.Removes h m') : Effect m (.remove h) (.found a) m'
  | read {h : Handle} {a : α} (found : m.get? h = some a) : Effect m (.get h) (.found a) m
  | replaced {h : Handle} {a b : α} {m' : SlotMap α} (found : m.get? h = some a)
      (replaces : m.Replaces h b m') : Effect m (.set h b) (.found a) m'
  | rejected {x : Access α} {h : Handle} (addressed : x.handle? = some h) (absent : m.get? h = none) :
      Effect m x (.rejected (.invalidHandle h)) m

theorem access_of_absent (addressed : x.handle? = some h) (absent : m.get? h = none) :
    m.access x = (.rejected (.invalidHandle h), m) := by
  cases x with
  | insert => cases addressed
  | remove => cases addressed; simp [access, remove_of_none absent]
  | get => cases addressed; simp [access, get_of_none absent]
  | set => cases addressed; simp [access, get_of_none absent]

theorem effect_of_access (wf : m.WellFormed) (x : Access α) :
    m.Effect x (m.access x).1 (m.access x).2 := by
  cases addressed : x.handle? with
  | none =>
    cases x with
    | insert a =>
      cases inserted : m.insert a with
      | ok out =>
        simp only [access, inserted]
        exact .inserted (wf.inserts inserted)
      | error e =>
        obtain ⟨rfl, full⟩ := full_of_insert inserted
        simp only [access, inserted]
        exact .full full
    | _ => cases addressed
  | some h =>
    cases found : m.get? h with
    | none =>
      rw [access_of_absent addressed found]
      exact .rejected addressed found
    | some a =>
      cases x with
      | insert => cases addressed
      | remove =>
        cases addressed
        obtain ⟨m', removed, removes⟩ := wf.removes found
        simp only [access, removed]
        exact .removed found removes
      | get =>
        cases addressed
        simp only [access, get_of_get? found]
        exact .read found
      | set h' b =>
        cases addressed
        simp only [access, get_of_get? found]
        exact .replaced found (wf.replaces found b)

namespace Effect

theorem wellFormed (effect : m.Effect x outcome m') (wf : m.WellFormed) : m'.WellFormed := by
  cases effect with
  | inserted inserts => exact inserts.wellFormed
  | removed _ removes => exact removes.wellFormed
  | replaced _ replaces => exact replaces.wellFormed
  | _ => exact wf

/-- No slot is given up. -/
theorem grows (effect : m.Effect x outcome m') : m.slots.size ≤ m'.slots.size := by
  cases effect with
  | inserted inserts => exact inserts.grows
  | removed _ removes => exact Nat.le_of_eq removes.slots.symm
  | replaced _ replaces => exact Nat.le_of_eq replaces.slots.symm
  | _ => exact Nat.le_refl _

/-- What a live handle leads to changes only if it is the one that is used. -/
theorem get?_of_other (effect : m.Effect x outcome m') (other : x.handle? ≠ some h)
    (found : m.get? h = some a) : m'.get? h = some a := by
  have ne : ∀ {k}, x.handle? = some k → h ≠ k := by
    rintro k addressed rfl
    exact other addressed
  cases effect with
  | inserted inserts =>
    rw [inserts.get?, if_neg, found]
    rintro rfl
    cases inserts.unused.symm.trans found
  | removed _ removes => rw [removes.get?, if_neg (ne rfl), found]
  | replaced _ replaces => rw [replaces.get?, if_neg (ne rfl), found]
  | _ => exact found

/-- Whatever is done with a live handle, its value is found. -/
theorem outcome_of_found (effect : m.Effect x outcome m') (addressed : x.handle? = some h)
    (found : m.get? h = some a) : outcome = .found a := by
  have same : ∀ {k b}, h = k → m.get? k = some b → Outcome.found b = .found a := by
    rintro k b rfl also
    exact congrArg Outcome.found (Option.some.inj (also.symm.trans found))
  cases effect with
  | inserted => cases addressed
  | full => cases addressed
  | removed also => exact same (Option.some.inj addressed).symm also
  | read also => exact same (Option.some.inj addressed).symm also
  | replaced also => exact same (Option.some.inj addressed).symm also
  | rejected also absent =>
    cases also.symm.trans addressed
    cases absent.symm.trans found

end Effect

/-! ## The log and the slot map -/

namespace Log

theorem mem_issued_of_valueOf (found : log.valueOf h = some a) : h ∈ log.issued := by
  induction log generalizing a with
  | nil => cases found
  | cons entry log ih =>
    obtain ⟨x, outcome⟩ := entry
    cases x with
    | insert b =>
      cases outcome with
      | issued k =>
        by_cases same : h = k
        · exact same ▸ List.mem_cons_self
        · exact List.mem_cons_of_mem k (ih ((if_neg same).symm.trans found))
      | found => exact ih found
      | rejected => exact ih found
    | get => cases outcome <;> exact ih found
    | remove k =>
      cases outcome with
      | found v =>
        by_cases same : h = k
        · cases (if_pos same).symm.trans found
        · exact ih ((if_neg same).symm.trans found)
      | issued => exact ih found
      | rejected => exact ih found
    | set k b =>
      cases outcome with
      | found v =>
        by_cases same : h = k
        · obtain ⟨c, before, -⟩ := Option.map_eq_some_iff.1 ((if_pos same).symm.trans found)
          exact ih before
        · exact ih ((if_neg same).symm.trans found)
      | issued => exact ih found
      | rejected => exact ih found

/-- A rejected access leaves the map as it is. -/
theorem rejected_eq (x : Access α) (e : Error) (log : Log α) :
    Log.issued ((x, .rejected e) :: log) = log.issued ∧
      (∀ h, Log.valueOf h ((x, .rejected e) :: log) = log.valueOf h) ∧
      ∀ i, Log.removals i ((x, .rejected e) :: log) = log.removals i := by
  cases x <;> exact ⟨rfl, fun _ => rfl, fun _ => rfl⟩

theorem removals_cons (i : Nat) (x : Access α) (outcome : Outcome α) (log : Log α) :
    log.removals i ≤ Log.removals i ((x, outcome) :: log) ∧
      Log.removals i ((x, outcome) :: log) ≤ log.removals i + 1 := by
  cases x with
  | remove k =>
    cases outcome with
    | found =>
      by_cases same : i = Handle.index k
      · simp [removals, same]
      · simp [removals, same]
    | _ => exact ⟨Nat.le_refl _, Nat.le_succ _⟩
  | _ => exact ⟨Nat.le_refl _, Nat.le_succ _⟩

theorem removals_le_length (i : Nat) (log : Log α) : log.removals i ≤ log.length := by
  induction log with
  | nil => exact Nat.le_refl 0
  | cons entry log ih => exact Nat.le_trans (removals_cons i _ _ log).2 (Nat.succ_le_succ ih)

end Log

/-- The slot map is the map that the log determines. -/
structure Tracks (log : Log α) (m : SlotMap α) : Prop where
  wellFormed : m.WellFormed
  value : ∀ h, m.get? h = log.valueOf h
  generation : ∀ i, (m.generationAt i).toNat = log.removals i + 1
  nonzero : 0 ∉ log.issued
  distinct : log.issued.Nodup
  superseded : ∀ h ∈ log.issued, m.get? h = none →
    Handle.generation h < m.generationAt (Handle.index h)
  size : m.size = log.live.length

theorem Tracks.empty : Tracks ([] : Log α) .empty where
  wellFormed := .empty
  value := fun _ => rfl
  generation := by
    intro i
    simp [SlotMap.empty, generationAt, Log.removals]
  nonzero := nofun
  distinct := List.nodup_nil
  superseded := nofun
  size := rfl

namespace Tracks

/-- A handle that is issued was not issued before. -/
theorem not_mem_issued (tracks : Tracks log m) (inserts : m.Inserts a k m') : k ∉ log.issued := by
  intro mem
  have later := tracks.superseded k mem inserts.unused
  rw [← inserts.generation] at later
  exact UInt32.lt_irrefl _ later

theorem insert (tracks : Tracks log m) (inserts : m.Inserts a k m') :
    Tracks ((.insert a, .issued k) :: log) m' where
  wellFormed := inserts.wellFormed
  value := by
    intro h
    rw [inserts.get?, tracks.value]
    rfl
  generation := by
    intro i
    rw [inserts.generationAt]
    exact tracks.generation i
  nonzero := List.not_mem_cons_of_ne_of_not_mem (inserts.nonzero tracks.wellFormed).symm
    tracks.nonzero
  distinct := List.nodup_cons.2 ⟨tracks.not_mem_issued inserts, tracks.distinct⟩
  superseded := by
    intro h mem absent
    rw [inserts.get?] at absent
    rw [inserts.generationAt]
    split at absent
    · cases absent
    · rename_i other
      exact tracks.superseded h (List.mem_of_ne_of_mem other mem) absent
  size := by
    have kept : ∀ h ∈ log.issued,
        (Log.valueOf h ((.insert a, .issued k) :: log)).isSome = (log.valueOf h).isSome := by
      intro h mem
      have other : h ≠ k := by
        rintro rfl
        exact tracks.not_mem_issued inserts mem
      simp only [Log.valueOf, if_neg other]
    have first : (Log.valueOf k ((.insert a, .issued k) :: log)).isSome := by simp [Log.valueOf]
    unfold Log.live Log.issued
    rw [inserts.size, tracks.size, List.filter_cons, if_pos first, List.filter_congr kept]
    rfl

theorem remove (tracks : Tracks log m) (found : m.get? h = some a) (removes : m.Removes h m')
    (few : log.removals (Handle.index h) + 1 < UInt32.size - 1) :
    Tracks ((.remove h, .found a) :: log) m' := by
  have now := tracks.generation (Handle.index h)
  rw [generationAt_of_get? found] at now
  have next := toNat_nextGeneration (g := Handle.generation h) (by omega)
  constructor
  · exact removes.wellFormed
  · intro k
    rw [removes.get?, tracks.value]
    rfl
  · intro i
    rw [removes.generationAt]
    unfold Log.removals
    split
    · rename_i same
      rw [next, now, same]
    · exact tracks.generation i
  · exact tracks.nonzero
  · exact tracks.distinct
  · intro k mem absent
    rw [removes.get?] at absent
    rw [removes.generationAt, UInt32.lt_iff_toNat_lt]
    by_cases same : k = h
    · rw [same, if_pos rfl, next]
      exact Nat.lt_succ_self _
    · have before := tracks.superseded k mem ((if_neg same).symm.trans absent)
      rw [UInt32.lt_iff_toNat_lt] at before
      split
      · rename_i shared
        rw [shared, generationAt_of_get? found] at before
        omega
      · exact before
  · have value := (tracks.value h).symm.trans found
    have live : Log.live ((.remove h, .found a) :: log) = log.live.erase h := by
      unfold Log.live
      rw [(tracks.distinct.filter _).erase_eq_filter, List.filter_filter]
      apply List.filter_congr
      intro k mem
      by_cases same : k = h
      · simp [Log.valueOf, same]
      · simp [Log.valueOf, same]
    have mem : h ∈ log.live :=
      List.mem_filter.2 ⟨Log.mem_issued_of_valueOf value, Option.isSome_of_eq_some value⟩
    rw [removes.size, tracks.size, live, List.length_erase_of_mem mem]

theorem replace (tracks : Tracks log m) (found : m.get? h = some a) (replaces : m.Replaces h b m') :
    Tracks ((.set h b, .found a) :: log) m' := by
  have value : ∀ k, Log.valueOf k ((.set h b, .found a) :: log) =
      if k = h then some b else log.valueOf k := by
    intro k
    by_cases same : k = h
    · simp [Log.valueOf, same, (tracks.value h).symm.trans found]
    · simp [Log.valueOf, same]
  constructor
  · exact replaces.wellFormed
  · intro k
    rw [replaces.get?, tracks.value, value]
  · intro i
    rw [replaces.generationAt]
    exact tracks.generation i
  · exact tracks.nonzero
  · exact tracks.distinct
  · intro k mem absent
    rw [replaces.get?] at absent
    rw [replaces.generationAt]
    split at absent
    · cases absent
    · exact tracks.superseded k mem absent
  · rw [replaces.size, tracks.size]
    refine congrArg List.length (List.filter_congr fun k _ => ?_)
    rw [value]
    split
    · rename_i same
      rw [same, (tracks.value h).symm.trans found]
      rfl
    · rfl

theorem reject (tracks : Tracks log m) (x : Access α) (e : Error) :
    Tracks ((x, .rejected e) :: log) m := by
  obtain ⟨issued, value, removals⟩ := Log.rejected_eq x e log
  constructor
  · exact tracks.wellFormed
  · intro h
    rw [value, tracks.value]
  · intro i
    rw [removals, tracks.generation]
  · exact issued ▸ tracks.nonzero
  · exact issued ▸ tracks.distinct
  · exact issued ▸ tracks.superseded
  · unfold Log.live
    simp only [issued, value]
    exact tracks.size

theorem read (tracks : Tracks log m) (h : Handle) (a : α) :
    Tracks ((.get h, .found a) :: log) m := by
  obtain ⟨wellFormed, value, generation, nonzero, distinct, superseded, size⟩ := tracks
  exact ⟨wellFormed, value, generation, nonzero, distinct, superseded, size⟩

theorem step (tracks : Tracks log m) (effect : m.Effect x outcome m')
    (few : ∀ i, Log.removals i ((x, outcome) :: log) < UInt32.size - 1) :
    Tracks ((x, outcome) :: log) m' := by
  cases effect with
  | inserted inserts => exact tracks.insert inserts
  | full => exact tracks.reject _ _
  | @removed h a _ found removes =>
    have bound := few (Handle.index h)
    simp only [Log.removals, if_pos] at bound
    exact tracks.remove found removes bound
  | read => exact tracks.read _ _
  | replaced found replaces => exact tracks.replace found replaces
  | rejected => exact tracks.reject _ _

end Tracks

/-! ## Runs -/

theorem run_concat (xs : List (Access α)) (x : Access α) : run (xs ++ [x]) = record (run xs) x :=
  List.foldl_concat ..

theorem tracks_of_run (xs : List (Access α))
    (few : ∀ i, (run xs).1.removals i < UInt32.size - 1) : Tracks (run xs).1 (run xs).2 := by
  induction xs using List.reverseRecOn with
  | nil => exact .empty
  | append_singleton xs x ih =>
    rw [run_concat] at few ⊢
    have tracks := ih fun i => Nat.lt_of_le_of_lt (Log.removals_cons i x _ _).1 (few i)
    exact tracks.step (effect_of_access tracks.wellFormed x) few

/-- More was removed in the end than at any time before. -/
theorem removals_le_of_part {before : List (Access α)} (part : before <+: xs) (i : Nat) :
    (run before).1.removals i ≤ (run xs).1.removals i := by
  obtain ⟨more, rfl⟩ := part
  induction more using List.reverseRecOn with
  | nil => simp
  | append_singleton more x ih =>
    rw [← List.append_assoc, run_concat]
    exact Nat.le_trans ih (Log.removals_cons i x _ _).1

/-- The slot map is a map with keys of its own choice, which it never chooses twice. -/
structure Refines (log : Log α) (m : SlotMap α) : Prop where
  nonzero : 0 ∉ log.issued
  distinct : log.issued.Nodup
  size : m.size = log.live.length
  /-- While there is room, a value gets a handle that was not issued before. -/
  room : ∀ a, m.slots.size < UInt32.size →
    ∃ k, (m.access (.insert a)).1 = .issued k ∧ k ≠ 0 ∧ k ∉ log.issued
  /-- Whatever is done with a live handle answers the value stored last. -/
  found : ∀ x h a, x.handle? = some h → log.valueOf h = some a → (m.access x).1 = .found a
  rejected : ∀ x h, x.handle? = some h → log.valueOf h = none →
    m.access x = (.rejected (.invalidHandle h), m)
  separate : ∀ x h, x.handle? ≠ some h → (log.valueOf h).isSome →
    (m.access x).2.get h = m.get h

theorem Tracks.refines (tracks : Tracks log m) : Refines log m where
  nonzero := tracks.nonzero
  distinct := tracks.distinct
  size := tracks.size
  room := by
    intro a room
    have effect := effect_of_access tracks.wellFormed (.insert a)
    generalize m.access (.insert a) = result at effect ⊢
    obtain ⟨outcome, m'⟩ := result
    cases effect with
    | @inserted _ k _ inserts =>
      exact ⟨k, rfl, inserts.nonzero tracks.wellFormed, tracks.not_mem_issued inserts⟩
    | full taken => exact absurd room (Nat.not_lt.2 taken)
    | rejected addressed => cases addressed
  found := by
    intro x h a addressed found
    rw [← tracks.value] at found
    exact (effect_of_access tracks.wellFormed x).outcome_of_found addressed found
  rejected := fun x h addressed absent =>
    access_of_absent addressed ((tracks.value h).trans absent)
  separate := by
    intro x h other live
    obtain ⟨a, found⟩ := Option.isSome_iff_exists.1 live
    rw [← tracks.value] at found
    have kept := (effect_of_access tracks.wellFormed x).get?_of_other other found
    rw [get_of_get? kept, get_of_get? found]

/-- At every time of a run that does not wear any slot out, the slot map does what the log says. -/
theorem refines_of_run (few : ∀ i, (run xs).1.removals i < UInt32.size - 1)
    {before : List (Access α)} (part : before <+: xs) : Refines (run before).1 (run before).2 :=
  (tracks_of_run before fun i =>
    Nat.lt_of_le_of_lt (removals_le_of_part part i) (few i)).refines

/-- The first slot is used three times, under three handles. -/
def recyclingAccesses : List (Access Nat) :=
  [.insert 10, .insert 20, .remove 0x100000000, .insert 30, .set 0x200000000 31, .remove 0x100000000,
    .get 0, .remove 0x200000000, .insert 40]

/-- Only the last of these handles leads to a value then. -/
theorem refines_of_run_recyclingAccesses :
    (∀ i, (run recyclingAccesses).1.removals i < UInt32.size - 1) ∧
      (run recyclingAccesses).1.live = [0x300000000, 0x100000001] ∧
      Refines (run recyclingAccesses).1 (run recyclingAccesses).2 := by
  have few : ∀ i, (run recyclingAccesses).1.removals i < UInt32.size - 1 := by
    intro i
    exact Nat.lt_of_le_of_lt (Log.removals_le_length i _) (by decide)
  exact ⟨few, by decide, refines_of_run few (List.prefix_refl _)⟩

end SlotMap

end IncrementalSat
