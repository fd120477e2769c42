import RecencyCache.Proofs.Roster.Refinement

/-!
# What an operation sheds

An operation that takes no record out on demand can still shed some: a push that displaces the
oldest record, and new limits. What it sheds are the oldest records, and each of them had to leave
when it was the oldest one of those still there (`exists_sheds_perform`).
-/
namespace RecencyCache

/-- Whether an operation takes entries out on demand. -/
def Op.removes {κ ν : Type} : Op κ ν → Bool
  | .command .pop | .command (.take _) | .command (.takeValue _) | .command (.erase _)
  | .command (.eraseAt _) | .command .clear => true
  | _ => false

/-- Whether an operation may bring an entry in. -/
def Op.inserts {κ ν : Type} : Op κ ν → Bool
  | .command (.push ..) | .command (.ensure _) | .command (.ensureWrite ..) => true
  | _ => false

namespace Roster

variable {κ ν : Type} {r r' : Roster κ ν} {x y : Record κ ν} {l kept dropped : List (Record κ ν)}
  {n : Nat} {k : κ}

theorem exists_of_full (h : r.full = true) : ∃ l x, r.records = l ++ [x] ∧
    r.policy.evicts r.clock.now (r.size + 1) r.capacity (some x.stamp) = true := by
  obtain ⟨x, hx, hevicts⟩ := (Option.any_eq_true ..).1 h
  obtain ⟨l, hl⟩ := List.getLast?_eq_some_iff.1 hx
  exact ⟨l, x, hl, hevicts⟩

variable [BEq κ]

/-- No key occurs twice. -/
def Distinct (r : Roster κ ν) : Prop :=
  r.records.Pairwise fun x y => (x.entry.key == y.entry.key) = false

theorem distinct_roster {s : Shelf κ ν} (inv : s.Inv) : s.roster.Distinct :=
  List.pairwise_map.2 inv.keys

/-- From `r` to `r'` the newer records `kept` stay and the older ones `dropped` leave. Each of these
had to leave when it was the oldest one, with `incoming` records to come. -/
structure Sheds (r r' : Roster κ ν) (incoming : Nat) (kept dropped : List (Record κ ν)) :
    Prop where
  records : r.records = kept ++ dropped
  stays : ∀ x ∈ kept, (r'.find? x.entry.key).isSome
  leaves : ∀ x ∈ dropped, r'.find? x.entry.key = none
  evicts : ∀ newer x older, dropped = newer ++ x :: older → r'.policy.evicts r'.clock.now
    ((kept ++ newer).length + 1 + incoming) r'.capacity (some x.stamp) = true

/-! ## Finding records -/

theorem isSome_find?_iff : (r.find? k).isSome ↔ ∃ x ∈ r.records, (x.entry.key == k) = true :=
  List.find?_isSome

theorem find?_eq_none_iff : r.find? k = none ↔ ∀ x ∈ r.records, (x.entry.key == k) = false := by
  simp [find?]

theorem isSome_find? [EquivBEq κ] (hx : x ∈ r.records) : (r.find? x.entry.key).isSome :=
  isSome_find?_iff.2 ⟨x, hx, BEq.rfl⟩

/-- Overwriting a value changes no key. -/
theorem isSome_find?_write? (r : Roster κ ν) (k : κ) (v : ν) (k' : κ) :
    ((r.write? k v).2.find? k').isSome = (r.find? k').isSome := by
  unfold write?
  split
  · rw [find?, List.find?_map, Option.isSome_map, find?]
    congr 2
    funext y
    simp only [Function.comp]
    split <;> rfl
  · rfl

/-! ## One operation -/

/-- Where every key stays, nothing is shed. -/
theorem sheds_nothing (h : ∀ x ∈ r.records, (r'.find? x.entry.key).isSome) :
    r.Sheds r' n r.records [] where
  records := (List.append_nil _).symm
  stays := h
  leaves := fun x hx => absurd hx List.not_mem_nil
  evicts := fun newer x older h => by simp at h

theorem Sheds.write? (h : r.Sheds r' n kept dropped) (k : κ) (v : ν) :
    r.Sheds (r'.write? k v).2 n kept dropped where
  records := h.records
  stays := fun x hx => by
    rw [isSome_find?_write?]
    exact h.stays x hx
  leaves := fun x hx => by
    rw [← Option.isNone_iff_eq_none, ← Option.not_isSome, isSome_find?_write?, h.leaves x hx]
    rfl
  evicts := by
    unfold Roster.write?
    split <;> exact h.evicts

variable [EquivBEq κ]

theorem sheds_of_records (h : r'.records = r.records) : r.Sheds r' n r.records [] :=
  sheds_nothing fun _ hx => isSome_find? (h ▸ hx)

theorem sheds_setClock (t : HandClock) : r.Sheds { r with clock := t } n r.records [] :=
  sheds_of_records rfl

/-- Shrinking sheds what it drops. -/
theorem exists_sheds_shrink (hd : r.Distinct) :
    ∃ kept dropped, r.Sheds r.shrink.2 0 kept dropped := by
  obtain ⟨dropped, hrecords, hevicts⟩ := r.exists_dropped
  refine ⟨r.kept, dropped, hrecords, fun x hx => isSome_find? (r := r.shrink.2) hx, fun x hx => ?_,
    hevicts⟩
  rw [Distinct, hrecords, List.pairwise_append] at hd
  exact find?_eq_none_iff.2 fun y hy => hd.2.2 y hy x hx

/-- The oldest record makes room for `y`. -/
theorem sheds_oldest (hd : r.Distinct) (hr : r.records = l ++ [x]) (hr' : r'.records = y :: l)
    (hy : (y.entry.key == x.entry.key) = false) (hevicts : r'.policy.evicts r'.clock.now
      (l.length + 1 + n) r'.capacity (some x.stamp) = true) : r.Sheds r' n l [x] where
  records := hr
  stays := fun z hz => isSome_find? (hr' ▸ List.mem_cons_of_mem y hz)
  leaves := by
    rw [Distinct, hr, List.pairwise_append] at hd
    rw [List.forall_mem_singleton, find?_eq_none_iff, hr', List.forall_mem_cons]
    exact ⟨hy, fun z hz => hd.2.2 z hz x (List.mem_singleton_self x)⟩
  evicts := fun newer z older h => by
    obtain ⟨rfl, rfl⟩ : newer = [] ∧ z = x := by
      cases newer with
      | nil => exact ⟨rfl, (List.cons.inj h).1.symm⟩
      | cons _ newer => simp at h
    rwa [List.append_nil]

/-- A push sheds nothing or the oldest record. -/
theorem exists_sheds_push (hd : r.Distinct) (e : Entry κ ν) :
    ∃ kept dropped, r.Sheds (r.push e).2 1 kept dropped ∧ dropped.length ≤ 1 := by
  unfold push
  split
  · -- a hit: the key itself is found at the front, every other one behind it
    refine ⟨r.records, [], sheds_nothing fun x hx => isSome_find?_iff.2 ?_, Nat.zero_le 1⟩
    by_cases hk : (x.entry.key == e.key) = true
    · exact ⟨r.stamped e, List.mem_cons_self, BEq.symm hk⟩
    · have hother : x ∈ r.without e.key := (List.mem_eraseP_of_neg (a := x) hk).2 hx
      exact ⟨x, List.mem_cons_of_mem _ hother, BEq.rfl⟩
  · rename_i hfind
    rw [Option.not_isSome_iff_eq_none, find?_eq_none_iff] at hfind
    split
    · rename_i hfull
      obtain ⟨l, x, hl, hevicts⟩ := exists_of_full hfull
      have hne : (e.key == x.entry.key) = false := by
        rw [BEq.comm]
        exact hfind x (hl ▸ List.mem_append_right l (List.mem_singleton_self x))
      rw [size, hl, List.length_append] at hevicts
      rw [hl, List.dropLast_concat]
      exact ⟨l, [x], sheds_oldest hd hl rfl hne hevicts, Nat.le_refl 1⟩
    · split
      · exact ⟨r.records, [], sheds_of_records rfl, Nat.zero_le 1⟩
      · refine ⟨r.records, [], sheds_nothing fun x hx => isSome_find?_iff.2 ?_, Nat.zero_le 1⟩
        exact ⟨x, List.mem_cons_of_mem _ hx, BEq.rfl⟩

variable [Inhabited ν]

theorem exists_sheds_ensure (hd : r.Distinct) (k : κ) :
    ∃ kept dropped, r.Sheds (r.ensure k).2 1 kept dropped ∧ dropped.length ≤ 1 := by
  unfold ensure
  split
  · exact ⟨r.records, [], sheds_of_records rfl, Nat.zero_le 1⟩
  · exact exists_sheds_push hd ⟨k, default⟩

/-- **One operation.** If it takes nothing out on demand, it sheds the oldest records, as far as
they have to leave, and an insertion sheds at most one. -/
theorem exists_sheds_perform (hd : r.Distinct) (target : Option (Entry κ ν)) {op : Op κ ν}
    (hop : op.removes = false) : ∃ kept dropped,
      r.Sheds (r.perform target op).2 (if op.inserts then 1 else 0) kept dropped ∧
        (op.inserts = true → dropped.length ≤ 1) := by
  have hsame : r.Sheds r 0 r.records [] := sheds_of_records rfl
  cases op with
  | query q => exact ⟨r.records, [], hsame, fun _ => Nat.zero_le 1⟩
  | command m =>
    cases m with
    | pop | take k | takeValue k | erase k | eraseAt pos | clear => cases hop
    | push hint e =>
      obtain ⟨kept, dropped, h, hle⟩ := exists_sheds_push hd e
      exact ⟨kept, dropped, h, fun _ => hle⟩
    | ensure k =>
      obtain ⟨kept, dropped, h, hle⟩ := exists_sheds_ensure hd k
      exact ⟨kept, dropped, h, fun _ => hle⟩
    | ensureWrite k v =>
      obtain ⟨kept, dropped, h, hle⟩ := exists_sheds_ensure hd k
      refine ⟨kept, dropped, ?_, fun _ => hle⟩
      simp only [perform, apply]
      split <;> rename_i heq <;> rw [heq] at h
      · exact h.write? k v
      · exact h
    | setCapacity n =>
      obtain ⟨kept, dropped, h⟩ := exists_sheds_shrink (r := { r with capacity := n }) hd
      exact ⟨kept, dropped, { h with }, fun hins => by cases hins⟩
    | setWindow d =>
      obtain ⟨kept, dropped, h⟩ :=
        exists_sheds_shrink (r := { r with policy := r.policy.withWindow d }) hd
      exact ⟨kept, dropped, { h with }, fun hins => by cases hins⟩
    | writeIfPresent k v | write k v =>
      exact ⟨r.records, [], hsame.write? k v, fun _ => Nat.zero_le 1⟩
    | limitNodes n => exact ⟨r.records, [], sheds_of_records rfl, fun _ => Nat.zero_le 1⟩
    | advance d =>
      exact ⟨r.records, [], sheds_setClock (r.clock.advance d), fun _ => Nat.zero_le 1⟩

end Roster
end RecencyCache
