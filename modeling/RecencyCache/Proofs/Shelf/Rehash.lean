import RecencyCache.Proofs.Roster

/-!
# A shelf under another hash function

A shelf keeps a hash function and a number of chains for no other purpose than to answer three
queries about them. With others in their place every operation gives the same answer, slots and
generations included, and leads to the same shelf: `perform_rehash`.
-/
namespace RecencyCache.Shelf

variable {κ ν : Type}

/-- The shelf with another hash function and another number of chains. -/
def rehash (s : Shelf κ ν) (hash : κ → UInt64) (chainCount : Nat) : Shelf κ ν :=
  { s with hash, chainCount }

variable (s : Shelf κ ν) (g : κ → UInt64) (m : Nat)

section Parts

variable (e : Entry κ ν)

@[simp] theorem free_rehash : (s.rehash g m).free = s.free := rfl

@[simp] theorem size_rehash : (s.rehash g m).size = s.size := rfl

@[simp] theorem oldest?_rehash : (s.rehash g m).oldest? = s.oldest? := rfl

@[simp] theorem at?_rehash (pos : Position) : (s.rehash g m).at? pos = s.at? pos := rfl

@[simp] theorem victim?_rehash : (s.rehash g m).victim? = s.victim? := rfl

@[simp] theorem overfull_rehash (n : Nat) : (s.rehash g m).overfull n = s.overfull n := rfl

@[simp] theorem reachedLimit?_rehash : (s.rehash g m).reachedLimit? = s.reachedLimit? := rfl

theorem store_rehash : (s.rehash g m).store e = (s.store e).rehash g m := by
  rw [store, store, free_rehash]
  cases s.free <;> rfl

end Parts

theorem insertNew_rehash (e : Entry κ ν) :
    (s.rehash g m).insertNew e = (s.insertNew e).map id (·.rehash g m) := by
  rw [insertNew, insertNew, reachedLimit?_rehash, store_rehash]
  cases s.reachedLimit? <;> rfl

theorem pop_rehash : (s.rehash g m).pop = s.pop.map id (·.rehash g m) := by
  rw [pop, pop, oldest?_rehash]
  cases s.oldest? <;> rfl

theorem evictWithin_rehash (n : Nat) :
    evictWithin n (s.rehash g m) = (evictWithin n s).map id (·.rehash g m) := by
  induction n generalizing s with
  | zero => rfl
  | succ n ih =>
    rw [evictWithin, evictWithin, overfull_rehash, size_rehash, pop_rehash]
    split
    · obtain ⟨r, s'⟩ := s.pop
      cases r with
      | error r => rfl
      | ok e =>
        have hrest := ih s'
        simp only [Prod.map, id, hrest]
    · rfl

theorem evictExcess_rehash :
    (s.rehash g m).evictExcess = s.evictExcess.map id (·.rehash g m) := evictWithin_rehash s g m _

theorem setCapacity_rehash (n : Nat) :
    (s.rehash g m).setCapacity n = (s.setCapacity n).map id (·.rehash g m) :=
  evictExcess_rehash { s with capacity := n } g m

theorem setWindow_rehash (d : Duration) :
    (s.rehash g m).setWindow d = (s.setWindow d).map id (·.rehash g m) :=
  evictExcess_rehash { s with policy := s.policy.withWindow d } g m

theorem eraseAt_rehash (pos : Position) :
    (s.rehash g m).eraseAt pos = (s.eraseAt pos).map id (·.rehash g m) := by
  rw [eraseAt, eraseAt, at?_rehash]
  cases s.at? pos <;> rfl

/-! ## By key -/

variable [BEq κ] (k : κ)

@[simp] theorem find?_rehash : (s.rehash g m).find? k = s.find? k := rfl

theorem push_rehash (e : Entry κ ν) :
    (s.rehash g m).push e = (s.push e).map id (·.rehash g m) := by
  rw [push, push, find?_rehash, victim?_rehash, insertNew_rehash]
  cases s.find? e.key with
  | some h => rfl
  | none => cases s.victim? <;> rfl

theorem erase_rehash : (s.rehash g m).erase k = (s.erase k).map id (·.rehash g m) := by
  rw [erase, erase, find?_rehash]
  cases s.find? k <;> rfl

theorem take_rehash : (s.rehash g m).take k = (s.take k).map id (·.rehash g m) := by
  rw [take, take, find?_rehash]
  cases s.find? k <;> rfl

theorem write?_rehash (v : ν) :
    (s.rehash g m).write? k v = (s.write? k v).map id (·.rehash g m) := by
  rw [write?, write?, find?_rehash]
  cases s.find? k <;> rfl

theorem ask_rehash (q : Query κ) (hq : Op.onHashes (.query q : Op κ ν) = false) :
    (s.rehash g m).ask q = s.ask q := by
  cases q with
  | hash k | chainCount | longestChain => cases hq
  | _ => rfl

variable [Inhabited ν]

theorem ensure_rehash : (s.rehash g m).ensure k = (s.ensure k).map id (·.rehash g m) := by
  rw [ensure, ensure, find?_rehash, push_rehash]
  cases s.find? k with
  | some h => rfl
  | none =>
    obtain ⟨r, s'⟩ := s.push ⟨k, default⟩
    cases r <;> rfl

theorem apply_rehash (c : Command κ ν) :
    (s.rehash g m).apply c = (s.apply c).map id (·.rehash g m) := by
  cases c with
  | push hint e => rw [apply, push_rehash]; rfl
  | pop => rw [apply, pop_rehash]; rfl
  | take k | takeValue k => rw [apply, take_rehash]; rfl
  | erase k => rw [apply, erase_rehash]; rfl
  | eraseAt pos => rw [apply, eraseAt_rehash]; rfl
  | setCapacity n => rw [apply, setCapacity_rehash]; rfl
  | setWindow d => rw [apply, setWindow_rehash]; rfl
  | writeIfPresent k v | write k v => rw [apply, write?_rehash]; rfl
  | ensure k => rw [apply, ensure_rehash]; rfl
  | ensureWrite k v =>
    rw [apply, apply, ensure_rehash]
    obtain ⟨r, s'⟩ := s.ensure k
    cases r <;> rfl
  | clear | limitNodes n | advance d => rfl

/-- **One operation.** Hashes have no influence on its answer, unless it asks for them, and none on
the shelf after it. -/
theorem perform_rehash (op : Op κ ν) :
    (op.onHashes = false → ((s.rehash g m).perform op).1 = (s.perform op).1) ∧
      ((s.rehash g m).perform op).2 = (s.perform op).2.rehash g m := by
  cases op with
  | query q => exact ⟨ask_rehash s g m q, rfl⟩
  | command c =>
    rw [perform, apply_rehash]
    exact ⟨fun _ => rfl, rfl⟩

end RecencyCache.Shelf
