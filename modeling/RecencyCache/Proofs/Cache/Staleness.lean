import RecencyCache.Proofs.Cache.Lifetime

/-!
# When a position is stale

A position whose entry has left is stale: it leads nowhere, and removing what is there removes
nothing. This holds for as long as the generation of the slot has not come round, and whenever the
slot is vacant (`stale_iff_turnovers`). It does not hold for ever. In a cache with room for one
entry every push of another key turns the only slot over (`Lone.pushes`), and after `2 ^ 32` of them
the position of the first entry leads to the last one (`position_comes_back`).
-/
namespace RecencyCache

namespace Cache

variable {κ ν : Type} [BEq κ] {c : Cache κ ν} {s : Shelf κ ν} {i : SlotId}

/-- Position `pos` leads nowhere. -/
structure Stale (c : Cache κ ν) (pos : Position) : Prop where
  entryAt : c.entryAt? pos = .ok none
  positionAfter : c.positionAfter? pos = .ok none
  eraseAt : c.eraseAt pos = .ok (none, c)

theorem Shows.isSome_tenant?_iff (sh : c.Shows s) : (c.tenant? i).isSome ↔ i ∈ s.slots := by
  rw [sh.tenant?_eq, Option.isSome_map, ← Decidable.not_iff_not, Option.not_isSome_iff_eq_none,
    Shelf.tenant?_eq_none_iff]

theorem Shows.stale_iff (sh : c.Shows s) (pos : Position) : c.Stale pos ↔ s.at? pos = none := by
  constructor
  · intro hstale
    have hat := hstale.entryAt
    rw [sh.entryAt?_eq, Except.ok.injEq, Option.map_eq_none_iff] at hat
    exact hat
  · intro hat
    refine ⟨?_, ?_, ?_⟩
    · rw [sh.entryAt?_eq, hat, Option.map_none]
    · rw [sh.positionAfter?_eq, hat, Option.bind_none, Option.map_none]
    · rw [eraseAt, sh.resolve_eq, hat]
      rfl

variable [EquivBEq κ] [Inhabited ν] {hash : κ → UInt64} {c₁ : Cache κ ν} {op : Op κ ν}
  {pos : Position}

/-- **Staleness.** The entry a position was answered for has left if the slot has turned over, and
the position is stale then, unless the number of turnovers is a multiple of `2 ^ 32` and the slot is
occupied. -/
theorem stale_iff_turnovers (ha : Agrees hash) (hc : c.Reachable hash)
    (hop : c.perform op = .ok (.position (some pos), c₁)) :
    ∃ e, c₁.entryAt? pos = .ok (some e) ∧ ∀ ops,
      ∃ earlier last, c₁.history ops = .ok (earlier, last) ∧
        ((∀ x ∈ earlier ++ [last], x.contains e.key = .ok true) ↔
          turnovers pos.slot earlier last = 0) ∧
        (last.Stale pos ↔
          ¬ (UInt32.size ∣ turnovers pos.slot earlier last ∧ (last.tenant? pos.slot).isSome)) := by
  obtain ⟨s, sh, h, hh, rfl, hentry⟩ := hc.exists_positionOf ha hop
  refine ⟨h.entry, hentry, fun ops => ?_⟩
  obtain ⟨earlier, last, hlast, course⟩ := sh.exists_course ops
  have sh' := course.shows_last
  refine ⟨earlier, last, hlast, course.contains_iff hh BEq.rfl, ?_⟩
  rw [sh'.stale_iff, sh'.isSome_tenant?_iff, and_comm, ← Option.not_isSome_iff_eq_none,
    Option.isSome_iff_exists, course.exists_at?_iff]
  exact Iff.rfl

/-- A position of a popped entry whose slot is used again. -/
theorem stale_after_pop : ∃ c, (empty 2 1 .bySize HashScheme.identity.hash :
      Cache Int64 Unit).perform (.command (.push none ⟨0, ()⟩)) = .ok (.flag true, c) ∧
    c.perform (.query .newestPosition) = .ok (.position (some ⟨0, 0⟩), c) ∧
    ∃ e, c.entryAt? ⟨0, 0⟩ = .ok (some e) ∧
      ∃ earlier last, c.history [.command .pop, .command (.push none ⟨1, ()⟩)] =
        .ok (earlier, last) ∧
      ((∀ x ∈ earlier ++ [last], x.contains e.key = .ok true) ↔ turnovers 0 earlier last = 0) ∧
      (last.Stale ⟨0, 0⟩ ↔ ¬ (UInt32.size ∣ turnovers 0 earlier last ∧ (last.tenant? 0).isSome)) := by
  have ha := agrees_of_lawful (κ := Int64) HashScheme.identity.hash
  have sh := shows_empty (ν := Unit) ha 2 1 .bySize .initial
  obtain ⟨c, hc, sh'⟩ := sh.follows_perform (.command (.push none ⟨0, ()⟩))
  have hpos : c.perform (.query .newestPosition) = .ok (.position (some ⟨0, 0⟩), c) := by
    rw [perform, sh'.ask_eq]
    rfl
  obtain ⟨e, he, hstale⟩ := stale_iff_turnovers ha ((Reachable.empty ..).perform hc) hpos
  exact ⟨c, hc, hpos, e, he, hstale _⟩

end Cache

/-! ## Room for one entry -/

/-- The pushes of the entries `f 1, …, f n`. -/
def Op.pushes {κ ν : Type} (f : Nat → Entry κ ν) (n : Nat) : List (Op κ ν) :=
  (List.range n).map fun j => .command (.push none (f (j + 1)))

namespace Shelf

variable {κ ν : Type} {s : Shelf κ ν} {e e' : Entry κ ν} {i : SlotId} {g : UInt32}

/-- The shelf has room for one record, which is `e`, in generation `g` of slot `i`. -/
structure Lone (s : Shelf κ ν) (e : Entry κ ν) (i : SlotId) (g : UInt32) : Prop where
  capacity : s.capacity = 1
  policy : s.policy = .bySize
  held : ∃ stamp, s.held = [⟨⟨e, stamp⟩, i⟩]
  generation : s.generation i = g

/-- Slot `i` starts another generation, and an eviction and an insertion are counted. -/
def turn (s : Shelf κ ν) (i : SlotId) : Shelf κ ν :=
  ({ s with generation := s.renewed i }.count .eviction).count .insertion

/-- The shelf after slot `i`, in which its only record lies, was given to another entry. -/
def handedTo (s : Shelf κ ν) (i : SlotId) (e : Entry κ ν) : Shelf κ ν :=
  { s with held := [⟨s.stamped e, i⟩] }.turn i

theorem Lone.handedTo (l : s.Lone e i g) (e' : Entry κ ν) :
    (s.handedTo i e').Lone e' i (g + 1) := by
  refine ⟨l.capacity, l.policy, ⟨s.clock.now, rfl⟩, ?_⟩
  show s.renewed i i = g + 1
  rw [renewed, if_pos rfl, l.generation]

theorem Lone.without_eq (l : s.Lone e i g) : s.without i = [] := by
  obtain ⟨stamp, hheld⟩ := l.held
  rw [without, hheld]
  simp

theorem Lone.replace_eq (l : s.Lone e i g) {h : Held κ ν} (hh : h ∈ s.held) (e' : Entry κ ν) :
    s.replace h e' = s.handedTo i e' := by
  obtain ⟨stamp, hheld⟩ := l.held
  obtain rfl : h = ⟨⟨e, stamp⟩, i⟩ := by rwa [hheld, List.mem_singleton] at hh
  rw [replace, l.without_eq]
  rfl

variable [BEq κ]

/-- A push of another key takes over the slot. -/
theorem Lone.push_eq (l : s.Lone e i g) (hk : (e.key == e'.key) = false) :
    s.push e' = (.ok true, s.handedTo i e') := by
  obtain ⟨stamp, hheld⟩ := l.held
  have hfind : s.find? e'.key = none := by
    rw [find?, hheld]
    simp [hk]
  have holdest : s.oldest? = some ⟨⟨e, stamp⟩, i⟩ := by
    rw [oldest?, hheld]
    rfl
  have hfull : s.overfull (s.size + 1) = true := by
    rw [overfull, l.policy, l.capacity, size, hheld]
    rfl
  have hvictim : s.victim? = some ⟨⟨e, stamp⟩, i⟩ := by
    rw [victim?, if_pos hfull, holdest]
  rw [Shelf.push, hfind]
  simp only [hvictim]
  rw [l.replace_eq (mem_of_oldest? holdest)]

theorem Lone.push (l : s.Lone e i g) (hk : (e.key == e'.key) = false) :
    (s.push e').2.Lone e' i (g + 1) := by
  rw [l.push_eq hk]
  exact l.handedTo e'

variable [Inhabited ν]

theorem run_append (s : Shelf κ ν) (a b : List (Op κ ν)) :
    (s.run (a ++ b)).2 = ((s.run a).2.run b).2 := by
  induction a generalizing s with
  | nil => rfl
  | cons op a ih => exact ih (s.perform op).2

/-- Pushes of other keys, one after the other, turn the slot over as often as there are pushes. -/
theorem Lone.pushes {f : Nat → Entry κ ν} (hf : ∀ j, ((f j).key == (f (j + 1)).key) = false)
    (l : s.Lone (f 0) i g) (n : Nat) :
    (s.run (Op.pushes f n)).2.Lone (f n) i (g + UInt32.ofNat n) := by
  induction n with
  | zero =>
    show s.Lone (f 0) i (g + 0)
    rw [UInt32.add_zero]
    exact l
  | succ n ih =>
    rw [Op.pushes, List.range_succ, List.map_append, run_append, UInt32.ofNat_add,
      ← UInt32.add_assoc]
    exact ih.push (hf n)

end Shelf

namespace Cache

theorem Shows.exists_pushes {κ ν : Type} [BEq κ] [EquivBEq κ] [Inhabited ν] {c : Cache κ ν}
    {s : Shelf κ ν} {f : Nat → Entry κ ν} {i : SlotId} {g : UInt32} (sh : c.Shows s)
    (l : s.Lone (f 0) i g) (hf : ∀ j, ((f j).key == (f (j + 1)).key) = false) (n : Nat) :
    ∃ earlier last, c.history (Op.pushes f n) = .ok (earlier, last) ∧
      last.toList = .ok [f n] ∧ last.entryAt? ⟨i, g + UInt32.ofNat n⟩ = .ok (some (f n)) := by
  obtain ⟨earlier, last, hlast, course⟩ := sh.exists_course (Op.pushes f n)
  have sh' := course.shows_last
  have l' := l.pushes hf n
  obtain ⟨stamp, hheld⟩ := l'.held
  refine ⟨earlier, last, hlast, ?_, ?_⟩
  · rw [sh'.toList_eq, Shelf.entries, hheld]
    rfl
  · have hat : (s.run (Op.pushes f n)).2.at? ⟨i, g + UInt32.ofNat n⟩ =
        some ⟨⟨f n, stamp⟩, i⟩ := by
      rw [sh'.inv.at?_eq_some_iff, hheld, Shelf.positionOf, l'.generation]
      exact ⟨List.mem_singleton_self _, rfl⟩
    rw [sh'.entryAt?_eq, hat]
    rfl

/-- A cache with room for one entry. -/
def lone : Cache Int64 Unit := empty 1 1 .bySize (HashScheme.constant 0).hash

theorem ofNat_succ_ne (j : Nat) : (Int64.ofNat j == Int64.ofNat (j + 1)) = false := by
  rw [beq_eq_false_iff_ne, Int64.ofNat_add]
  intro heq
  simp at heq

/-- **Staleness does not last.** The position of key `0` leads to another entry once `2 ^ 32` other
keys were pushed, though the key is not there any more. -/
theorem position_comes_back : ∃ c pos earlier last,
    lone.run [.command (.push none ⟨0, ()⟩), .query (.position 0)] =
      .ok ([.flag true, .position (some pos)], c) ∧
    c.history (Op.pushes (fun j => ⟨Int64.ofNat j, ()⟩) UInt32.size) = .ok (earlier, last) ∧
    last.keys = .ok [Int64.ofNat UInt32.size] ∧
    last.entryAt? pos = .ok (some ⟨Int64.ofNat UInt32.size, ()⟩) := by
  have ha := agrees_of_lawful (κ := Int64) (HashScheme.constant 0).hash
  have sh := shows_empty (ν := Unit) ha 1 1 .bySize .initial
  obtain ⟨c, hc, sh'⟩ := sh.follows_run [.command (.push none ⟨0, ()⟩), .query (.position 0)]
  obtain ⟨earlier, last, hlast, hlist, hat⟩ := sh'.exists_pushes
    (f := fun j => ⟨Int64.ofNat j, ()⟩) (i := 0) (g := 0) ⟨rfl, rfl, ⟨_, rfl⟩, rfl⟩
    ofNat_succ_ne UInt32.size
  refine ⟨c, ⟨0, 0⟩, earlier, last, hc, hlast, ?_, hat⟩
  rw [keys, hlist]
  rfl

end Cache

end RecencyCache
